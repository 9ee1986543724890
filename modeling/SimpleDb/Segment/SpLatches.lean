import SimpleDb.Segment.SpStore
import SimpleDb.Buffer.Step

/-!
Where the methods of `sp_segment.cc` leave a latch held, and what a later fix of that page
does in the same thread.

# The release calculus

`Releases ps m`: whenever `m` returns, it has released one hold on each page of `ps`, in that
order, and left every other latch as it found it (`releaseAll`); with `ps` empty, `m` keeps
the latches. The rules follow the code's brackets: a `fix_page` whose hold the rest of the
method releases first (`Releases.fix`, `Releases.getSlot_bind`), an `unfix_page`
(`Releases.unfix`), and the steps between, which keep the latches. `unlock` undoes the hold
`acquire` took (`Latch.unlock_of_acquire`), so a bracket gives back the latch it found,
whatever other latches the thread holds. `Holds` is the one open bracket, `allocate`'s choice
of page, which `storeRecord` closes.

# Results

- `allocate_releases`, `write_releases`, `erase_releases`: whenever they return, these
  methods leave the latches as they found them.
- `Call.latches_of_run`: on a segment whose latches are all free, a call that returns leaves
  them free but in two cases (`Call.latchesAfter`): `read` of a cleared slot returns `0`
  before its `unfix_page` and keeps the page latched shared, and `resize` of a record to the
  length it has returns before its `unfix_page` and keeps the page latched exclusively.
  `Call.run_keepsLatch`: both calls do return, on any slot of the page that is no redirect
  target.
- `Call.run_latched`: every call but `allocate` fixes the record's page first (`firstFix`),
  so a call on a page whose latch the thread holds in a mode that refuses the fix ends there.
- `Call.run_latches`: the two together, for a call and the thread's next call: the next call
  on the page left latched ends with `deadlock` after the exclusive hold, and with `blocked`
  after the shared one when it fixes exclusively.
-/

namespace SimpleDb

namespace SpSegment

-- ============================================================ the calculus

/-- One hold released on each page of `ps`, in order. -/
def releaseAll (ps : List Nat) (latches : Nat → Latch) : Nat → Latch :=
  ps.foldl (fun l p => Function.update l p (l p).unlock) latches

/-- Whenever `m` returns, it has released one hold on each page of `ps`, in order, and left
every other latch as it found it. -/
def Releases {α : Type} (ps : List Nat) (m : SpM α) : Prop :=
  ∀ s a s', m s = .ok a s' → s'.latches = releaseAll ps s.latches

/-- Whenever `m` returns `a`, it has taken one more hold on page `key a`, and left every other
latch as it found it. -/
def Holds {α : Type} (key : α → Nat) (m : SpM α) : Prop :=
  ∀ s a s', m s = .ok a s' → ∃ ex l, (s.latches (key a)).acquire ex = some l ∧
    s'.latches = Function.update s.latches (key a) l

section calculus

variable {α β : Type} {ps qs : List Nat} {p q : Nat} {s s' : SpSegment}

@[simp] theorem releaseAll_nil (l : Nat → Latch) : releaseAll [] l = l := rfl

theorem releaseAll_cons (l : Nat → Latch) :
    releaseAll (p :: ps) l = releaseAll ps (Function.update l p (l p).unlock) := rfl

/-- Two releases in either order: on two pages they commute, on one page they are the same. -/
theorem releaseAll_swap (l : Nat → Latch) : releaseAll (p :: q :: ps) l = releaseAll (q :: p :: ps) l := by
  by_cases h : p = q
  · rw [h]
  · simp only [releaseAll_cons, Function.update_noteq h, Function.update_noteq (Ne.symm h),
      Function.update_comm h]

theorem run_bind_eq_ok {x : SpM α} {f : α → SpM β} {b : β} {s'' : SpSegment} :
    (x >>= f) s = .ok b s'' ↔ ∃ a s', x s = .ok a s' ∧ f a s' = .ok b s'' := by
  show EStateM.bind x f s = _ ↔ _
  unfold EStateM.bind
  cases h : x s <;> simp [and_assoc]

theorem Releases.bind {m : SpM α} {f : α → SpM β} (hm : Releases ps m) (hf : ∀ a, Releases qs (f a)) :
    Releases (ps ++ qs) (m >>= f) := fun s b s'' h => by
  obtain ⟨a, s', h1, h2⟩ := run_bind_eq_ok.mp h
  rw [hf a s' b s'' h2, hm s a s' h1, releaseAll, releaseAll, releaseAll, List.foldl_append]

theorem Releases.keep_bind {m : SpM α} {f : α → SpM β} (hm : Releases [] m)
    (hf : ∀ a, Releases ps (f a)) : Releases ps (m >>= f) :=
  hm.bind hf

theorem Releases.bind_keep {m : SpM α} {f : α → SpM β} (hm : Releases ps m)
    (hf : ∀ a, Releases [] (f a)) : Releases ps (m >>= f) := by
  simpa only [List.append_nil] using hm.bind hf

theorem Releases.ite {c : Prop} [Decidable c] {a b : SpM α} (ha : Releases ps a) (hb : Releases ps b) :
    Releases ps (if c then a else b) := by
  split <;> assumption

theorem Releases.swap {m : SpM α} (h : Releases (p :: q :: ps) m) : Releases (q :: p :: ps) m :=
  fun s a s' hm => by rw [h s a s' hm, releaseAll_swap]

theorem unfixPage_releases (p : Nat) : Releases [p] (unfixPage p) := fun _ _ _ h => by
  cases h; rfl

theorem Releases.unfix {f : Unit → SpM α} (hf : ∀ a, Releases ps (f a)) :
    Releases (p :: ps) (unfixPage p >>= f) :=
  (unfixPage_releases p).bind hf

/-- An `unfix_page` of the second page to release, before the first. -/
theorem Releases.unfix_second {f : Unit → SpM α} (hf : ∀ a, Releases (q :: ps) (f a)) :
    Releases (q :: p :: ps) (unfixPage p >>= f) :=
  (Releases.unfix hf).swap

theorem fixPage_eq_ok {ex : Bool} {u : Unit} (h : fixPage p ex s = .ok u s') :
    ∃ l, (s.latches p).acquire ex = some l ∧ s' = { s with latches := Function.update s.latches p l } := by
  simp only [fixPage, bind, EStateM.bind, get, getThe, MonadStateOf.get, EStateM.get] at h
  cases hl : (s.latches p).acquire ex with
  | none => rw [hl] at h; cases h
  | some l => rw [hl] at h; cases h; exact ⟨l, rfl, rfl⟩

theorem fixPage_holds (p : Nat) (ex : Bool) : Holds (fun _ => p) (fixPage p ex) := fun _ _ _ h => by
  obtain ⟨l, hl, rfl⟩ := fixPage_eq_ok h
  exact ⟨ex, l, hl, rfl⟩

/-- A hold taken and given back. -/
theorem releaseAll_cons_update {l : Latch} {ex : Bool} {latches : Nat → Latch}
    (hl : (latches p).acquire ex = some l) :
    releaseAll (p :: ps) (Function.update latches p l) = releaseAll ps latches := by
  rw [releaseAll_cons, Function.update_same, Function.update_idem,
    BufferManager.Latch.unlock_of_acquire hl, Function.update_eq_self]

/-- A bracket: the hold `m` takes is the first the rest releases. -/
theorem Holds.release {key : α → Nat} {m : SpM α} {f : α → SpM β} (hm : Holds key m)
    (hf : ∀ a, Releases (key a :: ps) (f a)) : Releases ps (m >>= f) := fun s b s'' h => by
  obtain ⟨a, s', h1, h2⟩ := run_bind_eq_ok.mp h
  obtain ⟨ex, l, hl, hs'⟩ := hm s a s' h1
  rw [hf a s' b s'' h2, hs', releaseAll_cons_update hl]

theorem Releases.fix {ex : Bool} {f : Unit → SpM α} (hf : ∀ a, Releases (p :: ps) (f a)) :
    Releases ps (fixPage p ex >>= f) :=
  (fixPage_holds p ex).release hf

theorem pure_releases (a : α) : Releases [] (pure a : SpM α) := fun _ _ _ h => by cases h; rfl

theorem getPage_releases (idx : Nat) : Releases [] (getPage idx) := fun _ _ _ h => by cases h; rfl

theorem setPage_releases (idx : Nat) (page : SlottedPage) : Releases [] (setPage idx page) :=
  fun _ _ _ h => by cases h; rfl

theorem check_releases (b : Bool) (condition : String) : Releases [] (check b condition) :=
  fun _ _ _ h => by unfold check at h; split at h <;> cases h; rfl

theorem liftAssert_releases (r : Except String α) : Releases [] (liftAssert r) :=
  fun _ _ _ h => by cases r <;> cases h; rfl

theorem writeBytes_releases (idx offset : Nat) (bytes : List UInt8) :
    Releases [] (writeBytes idx offset bytes) :=
  (getPage_releases idx).keep_bind fun _ => setPage_releases _ _

theorem Releases.getSlot_bind {tid : Tid} {ex : Bool} {f : Slot → SpM α}
    (hf : ∀ slot, Releases (tid.pageId :: ps) (f slot)) : Releases ps (getSlot tid ex >>= f) := by
  rw [SpSegment.getSlot, bind_assoc]
  refine Releases.fix fun _ => ?_
  rw [bind_assoc]
  refine (getPage_releases _).keep_bind fun page => ?_
  rw [bind_assoc]
  exact (check_releases _ _).keep_bind fun _ => by rw [pure_bind]; exact hf _

theorem Holds.keep_bind {key : β → Nat} {m : SpM α} {f : α → SpM β}
    (hm : Releases [] m) (hf : ∀ a, Holds key (f a)) : Holds key (m >>= f) := fun s b s'' h => by
  obtain ⟨a, s', h1, h2⟩ := run_bind_eq_ok.mp h
  rw [← releaseAll_nil s.latches, ← hm s a s' h1]
  exact hf a s' b s'' h2

theorem Holds.bind_keep {key : α → Nat} {key' : β → Nat} {m : SpM α} {f : α → SpM β}
    (hm : Holds key m) (hf : ∀ a, Releases [] (f a))
    (hk : ∀ a s b s', f a s = .ok b s' → key' b = key a) : Holds key' (m >>= f) := fun s b s'' h => by
  obtain ⟨a, s', h1, h2⟩ := run_bind_eq_ok.mp h
  obtain ⟨ex, l, hl, hs'⟩ := hm s a s' h1
  rw [hk a s' b s'' h2]
  exact ⟨ex, l, hl, by rw [hf a s' b s'' h2, releaseAll_nil, hs']⟩

variable (c : SpConfig)

theorem updateFsi_releases (idx freeSpace : Nat) : Releases [] (updateFsi c idx freeSpace) :=
  fun _ _ _ h => by cases h; rfl

theorem findFsi_releases (requiredSpace : Nat) : Releases [] (findFsi c requiredSpace) :=
  Releases.keep_bind (fun _ _ _ h => by cases h; rfl) fun _ => liftAssert_releases _

theorem choosePage_releases (oPid : Option Nat) : Releases [] (choosePage oPid) := by
  cases oPid
  · exact fun _ _ _ h => by cases h; rfl
  · exact pure_releases _

end calculus

-- ============================================================ the methods

section methods

variable (c : SpConfig) {α : Type} {s s' : SpSegment}

/-- `allocate`'s first pick: the page it fixes exclusively. -/
theorem pickPage_holds (oPid : Option Nat) : Holds Prod.fst (pickPage c oPid) := by
  unfold pickPage
  refine Holds.keep_bind (choosePage_releases oPid) fun ⟨idx, created⟩ => ?_
  refine (fixPage_holds idx true).bind_keep (fun _ => ?_) fun _ _ _ _ h => ?_
  · dsimp only
    split
    · exact (setPage_releases _ _).keep_bind fun _ => pure_releases _
    · exact (pure_releases _).keep_bind fun _ => pure_releases _
  · dsimp only at h
    split at h <;> obtain ⟨_, _, -, h⟩ := run_bind_eq_ok.mp h <;> cases h <;> rfl

/-- The page `allocate` chooses stays fixed: a page too full for the record is given back
before the next one is fixed. -/
theorem selectPage_holds (size : Nat) : Holds id (selectPage c size) := fun s a s' h => by
  unfold selectPage at h
  obtain ⟨o, s1, h1, h⟩ := run_bind_eq_ok.mp h
  obtain ⟨⟨idx, created⟩, s2, h2, h⟩ := run_bind_eq_ok.mp h
  obtain ⟨page, s3, h3, h⟩ := run_bind_eq_ok.mp h
  obtain ⟨ex, l, hl, hs2⟩ := pickPage_holds c o s1 _ s2 h2
  have hs1 : s1.latches = s.latches := findFsi_releases c _ s o s1 h1
  have hs3 : s3.latches = s2.latches := getPage_releases _ s2 page s3 h3
  dsimp only at hl hs2 h
  rw [hs1] at hl hs2
  split at h
  · -- too full: the page given back, and another one picked
    obtain ⟨_, s4, h4, h⟩ := run_bind_eq_ok.mp h
    obtain ⟨_, s5, h5, h⟩ := run_bind_eq_ok.mp h
    have hs5 : s5.latches = s.latches := by
      rw [unfixPage_releases idx s4 _ s5 h5, check_releases _ _ s3 _ s4 h4, releaseAll_nil, hs3,
        hs2, releaseAll_cons_update hl, releaseAll_nil]
    have hpick : ∀ oPid, Holds id (pickPage c oPid >>= fun d => pure d.1) := fun oPid =>
      (pickPage_holds c oPid).bind_keep (fun _ => pure_releases _) fun _ _ _ _ h => by cases h; rfl
    rw [← hs5]
    split at h <;> obtain ⟨oPid, s6, h6, h⟩ := run_bind_eq_ok.mp h
    · rw [← releaseAll_nil s5.latches, ← findFsi_releases c _ s5 oPid s6 h6]
      exact hpick oPid s6 a s' h
    · cases h6
      exact hpick _ s5 a s' h
  · cases h
    exact ⟨ex, l, hl, by rw [hs3, hs2]; rfl⟩

theorem storeRecord_releases (idx size : Nat) (isRedirectTarget : Bool) (tmp : SlottedPage) :
    Releases [idx] (storeRecord c idx size isRedirectTarget tmp) := by
  unfold storeRecord
  repeat' first
    | with_reducible apply Releases.unfix | with_reducible apply Releases.keep_bind
    | with_reducible exact pure_releases _ | with_reducible exact getPage_releases _
    | with_reducible exact setPage_releases _ _ | with_reducible exact liftAssert_releases _
    | with_reducible exact updateFsi_releases c _ _ | intro _

/-- `allocate` gives back the page it chose, whatever latches the thread holds. -/
theorem allocate_releases (size : Nat) (isRedirectTarget : Bool) (tmp : SlottedPage) :
    Releases [] (allocate c size isRedirectTarget tmp) :=
  (selectPage_holds c size).release fun idx => storeRecord_releases c idx size isRedirectTarget tmp

theorem write_releases (tid : Tid) (record : List UInt8) : Releases [] (write tid record) := by
  unfold write
  refine Releases.getSlot_bind fun slot => ?_
  cases slot <;> dsimp only
  all_goals
    repeat' first
      | with_reducible apply Releases.getSlot_bind | with_reducible apply Releases.unfix
      | with_reducible apply Releases.keep_bind | with_reducible exact pure_releases _
      | with_reducible exact check_releases _ _ | with_reducible exact writeBytes_releases _ _ _
      | intro _

theorem erase_releases (tid : Tid) : Releases [] (erase c tid) := by
  unfold erase
  refine Releases.getSlot_bind fun slot => ?_
  cases slot <;> dsimp only
  all_goals
    repeat' first
      | with_reducible apply Releases.getSlot_bind | with_reducible apply Releases.unfix
      | with_reducible apply Releases.keep_bind | with_reducible exact pure_releases _
      | with_reducible exact getPage_releases _ | with_reducible exact setPage_releases _ _
      | with_reducible exact check_releases _ _ | with_reducible exact liftAssert_releases _
      | with_reducible exact updateFsi_releases c _ _ | intro _

/-- The slot `get_slot` reads, on the page it fixes. -/
theorem getSlot_eq_ok {tid : Tid} {ex : Bool} {slot : Slot} (h : getSlot tid ex s = .ok slot s') :
    ∃ l, (s.latches tid.pageId).acquire ex = some l ∧ slot = (s.pages tid.pageId).slots tid.slot ∧
      s' = { s with latches := Function.update s.latches tid.pageId l } := by
  unfold getSlot at h
  obtain ⟨_, s0, h0, h⟩ := run_bind_eq_ok.mp h
  obtain ⟨l, hl, rfl⟩ := fixPage_eq_ok h0
  obtain ⟨page, s1, h1, h⟩ := run_bind_eq_ok.mp h
  cases h1
  obtain ⟨_, s2, h2, h⟩ := run_bind_eq_ok.mp h
  unfold check at h2
  split at h2 <;> cases h2
  cases h
  exact ⟨l, hl, rfl, rfl⟩

/-- A method that fixes the record's page first and whose rest gives that hold back but on
the slots `keep` names: the latches it leaves. -/
theorem getSlot_bind_latches {tid : Tid} {ex : Bool} {f : Slot → SpM α} (keep : Slot → Prop)
    [DecidablePred keep] (hf : ∀ slot, Releases (if keep slot then [] else [tid.pageId]) (f slot))
    {a : α} (h : (getSlot tid ex >>= f) s = .ok a s') :
    ∃ l, (s.latches tid.pageId).acquire ex = some l ∧
      s'.latches = if keep ((s.pages tid.pageId).slots tid.slot) then
        Function.update s.latches tid.pageId l else s.latches := by
  obtain ⟨slot, s1, h1, h2⟩ := run_bind_eq_ok.mp h
  obtain ⟨l, hl, rfl, rfl⟩ := getSlot_eq_ok h1
  refine ⟨l, hl, ?_⟩
  rw [hf _ _ a s' h2]
  split_ifs
  · rfl
  · exact releaseAll_cons_update hl

/-- `read` gives back the latches it took, but on a cleared slot: there it returns `0` before
its `unfix_page`, with the page fixed shared. -/
theorem read_latches {tid : Tid} {capacity : Nat} {bytes : List UInt8}
    (h : read tid capacity s = .ok bytes s') :
    ∃ l, (s.latches tid.pageId).acquire false = some l ∧
      s'.latches = if ((s.pages tid.pageId).slots tid.slot).isEmpty then
        Function.update s.latches tid.pageId l else s.latches := by
  unfold read at h
  refine getSlot_bind_latches (fun slot => slot.isEmpty) (fun slot => ?_) h
  by_cases he : slot.isEmpty
  · simp only [if_pos he]
    exact (check_releases _ _).keep_bind fun _ => pure_releases _
  · simp only [if_neg he]
    cases slot <;> dsimp only
    all_goals
      repeat' first
        | with_reducible apply Releases.getSlot_bind | with_reducible apply Releases.unfix
        | with_reducible apply Releases.keep_bind | with_reducible exact pure_releases _
        | with_reducible exact getPage_releases _ | with_reducible exact check_releases _ _
        | intro _

/-- `resize` gives back the latches it took, but to the length the record has: there it
returns before its `unfix_page`, with the page fixed exclusively. -/
theorem resize_latches {tid : Tid} {newLength : Nat} {tmp : SlottedPage}
    (h : resize c tid newLength tmp s = .ok () s') :
    ∃ l, (s.latches tid.pageId).acquire true = some l ∧
      s'.latches = if ((s.pages tid.pageId).slots tid.slot).getSize = newLength then
        Function.update s.latches tid.pageId l else s.latches := by
  unfold resize at h
  refine getSlot_bind_latches (fun slot => slot.getSize = newLength) (fun slot => ?_) h
  by_cases hn : slot.getSize = newLength
  · simp only [if_pos hn]
    exact (check_releases _ _).keep_bind fun _ => pure_releases _
  · simp only [if_neg hn]
    cases slot <;> dsimp only
    all_goals
      repeat' first
        | with_reducible apply Releases.getSlot_bind | with_reducible apply Releases.unfix
        | with_reducible apply Releases.unfix_second | with_reducible apply Releases.keep_bind
        | with_reducible apply Releases.ite | with_reducible exact pure_releases _
        | with_reducible exact getPage_releases _ | with_reducible exact setPage_releases _ _
        | with_reducible exact check_releases _ _ | with_reducible exact liftAssert_releases _
        | with_reducible exact updateFsi_releases c _ _ | with_reducible exact allocate_releases c _ _ _
        | with_reducible exact write_releases _ _ | intro _

end methods

-- ============================================================ the calls

section calls

variable (c : SpConfig) {s s' : SpSegment}

/-- The latches a call leaves when it returns on a segment whose latches are all free: `read`
of a cleared slot keeps its shared hold on the page, and `resize` to the length the record
has its exclusive one; every other call leaves them free. -/
def Call.latchesAfter (s : SpSegment) : Call → Nat → Latch
  | .read tid _ => if ((s.pages tid.pageId).slots tid.slot).isEmpty then
      Function.update (fun _ => .unlocked) tid.pageId (.shared 0) else fun _ => .unlocked
  | .resize tid newLength _ => if ((s.pages tid.pageId).slots tid.slot).getSize = newLength then
      Function.update (fun _ => .unlocked) tid.pageId .exclusive else fun _ => .unlocked
  | _ => fun _ => .unlocked

/-- The page a call fixes first, and whether exclusively: the record's page for every call
but `allocate`, which first asks the FSI. -/
def Call.firstFix : Call → Option (Nat × Bool)
  | .allocate _ _ => none
  | .read tid _ => some (tid.pageId, false)
  | .write tid _ => some (tid.pageId, true)
  | .resize tid _ _ => some (tid.pageId, true)
  | .erase tid => some (tid.pageId, true)

/-- `read` of a cleared slot and `resize` of a record to the length it has do return, on any
slot of a free page that is no redirect target. -/
theorem Call.run_keepsLatch (tid : Tid) (hl : s.latches tid.pageId = .unlocked)
    (hs : tid.slot < (s.pages tid.pageId).slotCount) (capacity : Nat) (tmp : SlottedPage) :
    (((s.pages tid.pageId).slots tid.slot).isEmpty →
      ∃ s', (Call.read tid capacity).run c s = .ok (.bytes []) s') ∧
    (((s.pages tid.pageId).slots tid.slot).isRedirectTarget = false →
      ∃ s', (Call.resize tid ((s.pages tid.pageId).slots tid.slot).getSize tmp).run c s = .ok .done s') := by
  constructor
  · intro he
    have hempty : (s.pages tid.pageId).slots tid.slot = .empty := by
      revert he; cases (s.pages tid.pageId).slots tid.slot <;> simp [Slot.isEmpty]
    have hr : SpSegment.read tid capacity s = .ok []
        { s with latches := Function.update s.latches tid.pageId (.shared 0) } := by
      rw [SpSegment.read, run_bind_ok (getSlot_ok (by rw [hl]; rfl) hs), hempty]; rfl
    exact ⟨_, run_bind_ok hr⟩
  · intro hrt
    have hr : SpSegment.resize c tid ((s.pages tid.pageId).slots tid.slot).getSize tmp s = .ok ()
        { s with latches := Function.update s.latches tid.pageId .exclusive } := by
      rw [SpSegment.resize, run_bind_ok (getSlot_ok (by rw [hl]; rfl) hs)]
      simp only [hrt, check, Bool.not_false, ↓reduceIte, bind, EStateM.bind, pure, EStateM.pure]
    exact ⟨_, run_bind_ok hr⟩

/-- On a segment whose latches are all free, the latches a call leaves when it returns are
`Call.latchesAfter`: all free, but after `read` of a cleared slot and `resize` to the length
the record has, which return before their `unfix_page`. -/
theorem Call.latches_of_run (hfree : ∀ t, s.latches t = .unlocked) {call : Call} {r : Reply}
    (h : call.run c s = .ok r s') : s'.latches = call.latchesAfter s := by
  have hL : s.latches = fun _ => .unlocked := funext hfree
  cases call <;> obtain ⟨a, s1, h1, h2⟩ := run_bind_eq_ok.mp h <;> cases h2
  case allocate => rw [allocate_releases c _ _ _ s _ _ h1, releaseAll_nil, hL]; rfl
  case write => rw [write_releases _ _ s _ _ h1, releaseAll_nil, hL]; rfl
  case erase => rw [erase_releases c _ s _ _ h1, releaseAll_nil, hL]; rfl
  case read tid _ =>
    obtain ⟨l, hl, hs⟩ := read_latches h1
    rw [hfree] at hl
    cases hl
    rw [hs, hL]; rfl
  case resize tid _ _ =>
    obtain ⟨l, hl, hs⟩ := resize_latches c h1
    rw [hfree] at hl
    cases hl
    rw [hs, hL]; rfl

/-- Every call but `allocate` fixes the record's page first: on a hold of the thread's own
that refuses the fix, it ends there, the segment as it was. -/
theorem Call.run_latched {call : Call} {p : Nat} {ex : Bool} (hfix : call.firstFix = some (p, ex))
    (hl : (s.latches p).acquire ex = none) : call.run c s = .error (latchError p (s.latches p)) s := by
  cases call <;> cases hfix
  case read tid _ => exact run_bind_error (by rw [SpSegment.read]; exact run_bind_error (getSlot_latched hl))
  case write tid _ => exact run_bind_error (by rw [SpSegment.write]; exact run_bind_error (getSlot_latched hl))
  case resize tid _ _ =>
    exact run_bind_error (by rw [SpSegment.resize]; exact run_bind_error (getSlot_latched hl))
  case erase tid => exact run_bind_error (by rw [SpSegment.erase]; exact run_bind_error (getSlot_latched hl))

/-- Which calls return holding a latch, and what the thread's next call does on its page. On a
segment whose latches are all free, a call that returns leaves the latches
`Call.latchesAfter`: all free, but after `read` of a cleared slot (shared) and `resize` to the
length the record has (exclusive). A next call whose first fix that hold refuses ends there:
with `deadlock` after the exclusive hold, with `blocked` after the shared one. -/
theorem Call.run_latches (hfree : ∀ t, s.latches t = .unlocked) {call : Call} {r : Reply}
    (h : call.run c s = .ok r s') :
    s'.latches = call.latchesAfter s ∧
      ∀ (call' : Call) (p : Nat) (ex : Bool), call'.firstFix = some (p, ex) →
        (call.latchesAfter s p).acquire ex = none →
        call'.run c s' = .error (latchError p (call.latchesAfter s p)) s' := by
  have hl := Call.latches_of_run c hfree h
  refine ⟨hl, fun call' p ex hfix hheld => ?_⟩
  rw [← hl] at hheld ⊢
  exact Call.run_latched c hfix hheld

/-- `resize` of the 10-byte record of page 0 to 10 bytes keeps page 0 latched exclusively, and
a `read` of the record in slot 2 of the same page then throws (`deadlock`). -/
theorem Call.run_latches_sameLength :
    (∀ t, demoSegment.latches t = .unlocked) ∧
      ∃ r s', (Call.resize ⟨0, 0⟩ 10 demoPage0).run demoConfig demoSegment = .ok r s' ∧
        s'.latches = (Call.resize ⟨0, 0⟩ 10 demoPage0).latchesAfter demoSegment ∧
        (Call.resize ⟨0, 0⟩ 10 demoPage0).latchesAfter demoSegment 0 = .exclusive ∧
        (Call.read ⟨0, 2⟩ 100).run demoConfig s' = .error (.deadlock 0) s' := by
  obtain ⟨s', h⟩ := (Call.run_keepsLatch demoConfig (s := demoSegment) ⟨0, 0⟩ rfl
    (by decide) 100 demoPage0).2 rfl
  have hl := Call.run_latches demoConfig (fun _ => rfl) h
  exact ⟨fun _ => rfl, _, s', h, hl.1, rfl, hl.2 (Call.read ⟨0, 2⟩ 100) 0 false rfl rfl⟩

end calls

end SpSegment

end SimpleDb
