import SimpleDb.BTree.Audit
import SimpleDb.BTree.Update

/-!
How a tree operation runs over the buffer manager, one primitive at a time.

# Weakest preconditions

`Wp x w Q E` says that the run of `x` from `w` ends in a state satisfying `Q` of the value
it returns, or `E` of the error it throws. One rule per combinator and one lemma per
primitive let a proof about an operation follow the operation's code, never unfolding the
buffer manager.

# The run invariant

`Holding w₀ w held` relates the world an operation started from to the world it has
reached holding the latches `held`, newest first. The buffer manager is sound; every latch
is the one the operation found, taken once more for each hold; the pages being written are
those the world was writing and the held pages written; and the trace replays, under both
monitors of `Audit`, to exactly `held`. Every primitive keeps it, adding, marking or
dropping a hold. An operation that ends holding nothing has given back every latch it took
and kept both disciplines, and leaves every latch as it found it.

# A clean start

From a world where no page is fixed and at least three frames exist (`Clean`), a
`fix_page` of a page the operation does not hold, made holding at most two, returns: the
latch is free, and some resident frame is not fixed, so there is a victim.
-/

namespace SimpleDb

namespace World

variable {K V : Type}

/-- The buffer manager's invariant and its coherence with the ghost page map. -/
structure Sound (w : World K V) : Prop where
  inv : BufferManager.Inv w.bm
  coherent : BufferManager.Coherent w.session

/-- No page fixed, and room for three. -/
def Clean (w : World K V) : Prop := (∀ q, ¬ w.bm.Fixed q) ∧ 3 ≤ w.bm.pageCount

end World

namespace BTree

variable {K V : Type}

-- ============================================================ weakest preconditions

/-- The run of `x` from `w` returns with `Q` of its value and state, or throws with `E` of
its error and state. -/
def Wp {α : Type} (x : TreeM K V α) (w : World K V) (Q : α → World K V → Prop)
    (E : TreeError → World K V → Prop) : Prop :=
  match x w with
  | .ok a w' => Q a w'
  | .error e w' => E e w'

section wp

variable {α β : Type} {w : World K V} {Q : α → World K V → Prop} {E : TreeError → World K V → Prop}

/-- A `pure` returns its value in the state it is given. -/
@[simp] theorem wp_pure (a : α) : Wp (pure a : TreeM K V α) w Q E ↔ Q a w := Iff.rfl

/-- A `throw` ends with its error in the state it is given. -/
@[simp] theorem wp_throw (e : TreeError) : Wp (throw e : TreeM K V α) w Q E ↔ E e w := Iff.rfl

/-- The rule of sequencing: the first part ends where the second starts. -/
theorem wp_bind (x : TreeM K V β) (f : β → TreeM K V α) :
    Wp (x >>= f) w Q E ↔ Wp x w (fun b w' => Wp (f b) w' Q E) E := by
  rcases h : x w with ⟨b, w'⟩ | ⟨e, w'⟩ <;> simp only [Wp, bind, EStateM.bind, h]

/-- A `get` hands the rest of the run the state itself. -/
@[simp] theorem wp_get_bind (f : World K V → TreeM K V α) :
    Wp (get >>= f) w Q E ↔ Wp (f w) w Q E := Iff.rfl

/-- A `modify` hands the rest of the run the changed state. -/
@[simp] theorem wp_modify_bind (g : World K V → World K V) (f : Unit → TreeM K V α) :
    Wp (modify g >>= f) w Q E ↔ Wp (f ()) (g w) Q E := Iff.rfl

/-- A `modify` at the end returns in the changed state. -/
@[simp] theorem wp_modify {Q : Unit → World K V → Prop} (g : World K V → World K V) :
    Wp (modify g : TreeM K V Unit) w Q E ↔ Q () (g w) := Iff.rfl

/-- Consequence: stronger postconditions follow from weaker ones. -/
theorem wp_mono {x : TreeM K V α} {Q' : α → World K V → Prop} {E' : TreeError → World K V → Prop}
    (h : Wp x w Q E) (hq : ∀ a w', Q a w' → Q' a w') (he : ∀ e w', E e w' → E' e w') :
    Wp x w Q' E' := by
  unfold Wp at *
  split at h <;> simp_all

/-- An `assert` returns when its condition holds, and throws `assertion` otherwise. -/
@[simp] theorem wp_check {Q : Unit → World K V → Prop} {c : Prop} [Decidable c] (what : String) :
    Wp (check c what : TreeM K V Unit) w Q E ↔ if c then Q () w else E (.assertion what) w := by
  unfold check; split <;> rfl

/-- A page method returns its value, or its failed `assert` becomes the operation's. -/
@[simp] theorem wp_liftAssert (r : Except String α) :
    Wp (liftAssert r : TreeM K V α) w Q E ↔
      match r with
      | .ok a => Q a w
      | .error what => E (.assertion what) w := by
  cases r <;> rfl

/-- `create_new_node` mints the page id `nodeCount` of the segment, and counts it. -/
@[simp] theorem wp_createNewNode (Q : Pid → World K V → Prop) :
    Wp (createNewNode : TreeM K V Pid) w Q E ↔
      Q (pidAt w.tree.segmentId w.tree.nodeCount)
        { w with tree := { w.tree with nodeCount := w.tree.nodeCount + 1 } } := Iff.rfl

end wp

-- ============================================================ holds

/-- The hold the operation has on page `q`, if any. -/
def holdOf (held : List Hold) (q : Pid) : Option Hold := held.find? (·.pid = q)

/-- The latch of `q` under the operation's holds: the latch it found, taken once more by
its hold of `q`. -/
def heldLatch (base : Latch) (held : List Hold) (q : Pid) : Latch :=
  match holdOf held q with
  | some h => (base.acquire h.exclusive).getD base
  | none => base

/-- Whether the operation wrote `q` under its hold. -/
def heldWritten (held : List Hold) (q : Pid) : Bool :=
  match holdOf held q with
  | some h => h.written
  | none => false

section holds

variable {held : List Hold} {h : Hold} {p q : Pid}

/-- The hold of `q` in a list with one more hold in front. -/
theorem holdOf_cons (x : Hold) (held : List Hold) (q : Pid) :
    holdOf (x :: held) q = if x.pid = q then some x else holdOf held q := by
  by_cases hx : x.pid = q <;> simp [holdOf, List.find?_cons, hx]

/-- No hold of a page that no hold names. -/
theorem holdOf_eq_none (hq : q ∉ held.map Hold.pid) : holdOf held q = none :=
  List.find?_eq_none.mpr fun x hx e => hq (by simpa using (⟨x, hx, of_decide_eq_true e⟩ : ∃ x ∈ held, x.pid = q))

/-- The hold found for `q` is in the list and names `q`. -/
theorem mem_of_holdOf (he : holdOf held q = some h) : h ∈ held ∧ h.pid = q := by
  unfold holdOf at he
  exact ⟨List.mem_of_find?_eq_some he, by simpa using List.find?_some he⟩

/-- With pairwise distinct pages, a hold is the one found for its page. -/
theorem holdOf_of_mem (hnd : (held.map Hold.pid).Nodup) (hh : h ∈ held) :
    holdOf held h.pid = some h := by
  induction held with
  | nil => cases hh
  | cons x xs ih =>
    rw [List.map_cons, List.nodup_cons] at hnd
    rw [holdOf_cons]
    rcases List.mem_cons.mp hh with rfl | hx
    · simp
    · have hne : x.pid ≠ h.pid := fun e => hnd.1 (e ▸ List.mem_map_of_mem _ hx)
      rw [if_neg hne, ih hnd.2 hx]

/-- Dropping a hold forgets its page and no other. -/
theorem holdOf_erase (hnd : (held.map Hold.pid).Nodup) (hh : h ∈ held) (q : Pid) :
    holdOf (held.erase h) q = if h.pid = q then none else holdOf held q := by
  induction held with
  | nil => cases hh
  | cons x xs ih =>
    rw [List.map_cons, List.nodup_cons] at hnd
    rcases eq_or_ne x h with rfl | hxh
    · rw [List.erase_cons_head, holdOf_cons]
      by_cases hq : x.pid = q
      · simp only [hq, if_true]; exact holdOf_eq_none (hq ▸ hnd.1)
      · simp only [hq, if_false]
    · have hx : h ∈ xs := (List.mem_cons.mp hh).resolve_left (Ne.symm hxh)
      have hne : x.pid ≠ h.pid := fun e => hnd.1 (e ▸ List.mem_map_of_mem _ hx)
      rw [List.erase_cons_tail (by simpa using hxh), holdOf_cons, holdOf_cons, ih hnd.2 hx]
      by_cases hq : x.pid = q
      · rw [if_pos hq, if_pos hq, if_neg (hq ▸ Ne.symm hne)]
      · rw [if_neg hq, if_neg hq]

/-- Dropping a hold drops its page from the pages held. -/
theorem map_pid_erase (hnd : (held.map Hold.pid).Nodup) (hh : h ∈ held) :
    (held.erase h).map Hold.pid = (held.map Hold.pid).erase h.pid := by
  induction held with
  | nil => cases hh
  | cons x xs ih =>
    rw [List.map_cons, List.nodup_cons] at hnd
    rcases eq_or_ne x h with rfl | hxh
    · simp
    · have hx : h ∈ xs := (List.mem_cons.mp hh).resolve_left (Ne.symm hxh)
      have hne : x.pid ≠ h.pid := fun e => hnd.1 (e ▸ List.mem_map_of_mem _ hx)
      rw [List.erase_cons_tail (by simpa using hxh), List.map_cons, List.map_cons,
        List.erase_cons_tail (by simpa using hne), ih hnd.2 hx]

/-- Dropping a hold keeps the held pages pairwise distinct. -/
theorem nodup_erase (hnd : (held.map Hold.pid).Nodup) (h : Hold) :
    ((held.erase h).map Hold.pid).Nodup :=
  hnd.sublist ((List.erase_sublist h held).map _)

/-- The hold `markWritten` leaves for a hold `x`. -/
theorem markWritten_cons (x : Hold) (held : List Hold) :
    markWritten p (x :: held) = (if x.pid = p then { x with written := true } else x) :: markWritten p held :=
  rfl

/-- Marking a hold written keeps its page. -/
theorem pid_mark (x : Hold) : (if x.pid = p then { x with written := true } else x).pid = x.pid := by
  split <;> rfl

/-- Marking a hold written keeps its mode. -/
theorem exclusive_mark (x : Hold) :
    (if x.pid = p then { x with written := true } else x).exclusive = x.exclusive := by
  split <;> rfl

/-- Marking a page written keeps the pages held. -/
@[simp] theorem map_pid_markWritten (p : Pid) (held : List Hold) :
    (markWritten p held).map Hold.pid = held.map Hold.pid := by
  induction held with
  | nil => rfl
  | cons x xs ih => rw [markWritten_cons, List.map_cons, List.map_cons, ih, pid_mark]

/-- Marking a page that no hold names changes nothing. -/
theorem markWritten_of_not_mem (hp : p ∉ held.map Hold.pid) : markWritten p held = held := by
  induction held with
  | nil => rfl
  | cons x xs ih =>
    simp only [List.map_cons, List.mem_cons, not_or] at hp
    rw [markWritten_cons, if_neg (Ne.symm hp.1), ih hp.2]

/-- Marking the page of the newest hold, held once, marks that hold. -/
theorem markWritten_cons_self (x : Hold) (hx : x.pid ∉ held.map Hold.pid) :
    markWritten x.pid (x :: held) = { x with written := true } :: held := by
  rw [markWritten_cons, if_pos rfl, markWritten_of_not_mem hx]

/-- Marking another page than the newest hold's passes it by. -/
theorem markWritten_cons_ne {x : Hold} (hx : x.pid ≠ p) (held : List Hold) :
    markWritten p (x :: held) = x :: markWritten p held := by
  rw [markWritten_cons, if_neg hx]

/-- The hold of `q` after a page is marked written. -/
theorem holdOf_markWritten (p : Pid) (held : List Hold) (q : Pid) :
    holdOf (markWritten p held) q =
      (holdOf held q).map fun x => if x.pid = p then { x with written := true } else x := by
  induction held with
  | nil => rfl
  | cons x xs ih =>
    rw [markWritten_cons, holdOf_cons, holdOf_cons, ih, pid_mark]
    split <;> rfl

/-- An unheld page has the latch the operation found. -/
theorem heldLatch_of_not_mem (base : Latch) (hq : q ∉ held.map Hold.pid) :
    heldLatch base held q = base := by
  rw [heldLatch, holdOf_eq_none hq]

/-- An unheld page is not written under a hold. -/
theorem heldWritten_of_not_mem (hq : q ∉ held.map Hold.pid) : heldWritten held q = false := by
  rw [heldWritten, holdOf_eq_none hq]

/-- A held page marked written is written under its hold. -/
theorem heldWritten_markWritten_self (hnd : (held.map Hold.pid).Nodup) (hh : h ∈ held) :
    heldWritten (markWritten h.pid held) h.pid = true := by
  rw [heldWritten, holdOf_markWritten, holdOf_of_mem hnd hh]
  simp

/-- Marking a page leaves every other page's mark. -/
theorem heldWritten_markWritten_of_ne (hq : q ≠ p) (held : List Hold) :
    heldWritten (markWritten p held) q = heldWritten held q := by
  rw [heldWritten, heldWritten, holdOf_markWritten]
  cases hx : holdOf held q with
  | none => rfl
  | some x => simp [(mem_of_holdOf hx).2, hq]

/-- Marking a page written leaves every latch. -/
theorem heldLatch_markWritten (base : Latch) (p : Pid) (held : List Hold) (q : Pid) :
    heldLatch base (markWritten p held) q = heldLatch base held q := by
  unfold heldLatch
  rw [holdOf_markWritten]
  cases holdOf held q <;> simp only [Option.map, exclusive_mark]

end holds

-- ============================================================ the run invariant

/-- The world `w` an operation reached from `w₀` holding `held`, newest first. -/
structure Holding (w₀ w : World K V) (held : List Hold) : Prop where
  sound : w.Sound
  pageCount : w.bm.pageCount = w₀.bm.pageCount
  nodup : (held.map Hold.pid).Nodup
  latch : ∀ q, (w.bm.frame q).pageLatch = heldLatch (w₀.bm.frame q).pageLatch held q
  acquired : ∀ h ∈ held, (w₀.bm.frame h.pid).pageLatch.acquire h.exclusive ≠ none
  pending : ∀ q, w.pending q = (w₀.pending q || heldWritten held q)
  fresh : ∀ h ∈ held, w₀.pending h.pid = false
  trace : ∃ evs, w.trace = w₀.trace ++ evs ∧ latchHolds [] evs = some (held.map Hold.pid) ∧
    writeHolds [] evs = some held

namespace Holding

variable {w₀ w : World K V} {held : List Hold} {h : Hold} {p : Pid}

/-- An operation starts holding nothing. -/
theorem start (hs : w.Sound) : Holding w w [] :=
  ⟨hs, rfl, List.nodup_nil, fun _ => rfl, fun _ h => (List.not_mem_nil _ h).elim,
    fun _ => by simp [heldWritten, holdOf], fun _ h => (List.not_mem_nil _ h).elim, [], by simp, rfl, rfl⟩

/-- The tree's fields are no part of it. -/
theorem setTree (hh : Holding w₀ w held) (t : BTree) : Holding w₀ { w with tree := t } held :=
  ⟨⟨hh.sound.1, hh.sound.2⟩, hh.2, hh.3, hh.4, hh.5, hh.6, hh.7, hh.8⟩

/-- The latch of a held page is the one its hold took. -/
theorem latch_of_mem (hh : Holding w₀ w held) (hm : h ∈ held) :
    ∃ l, (w₀.bm.frame h.pid).pageLatch.acquire h.exclusive = some l ∧ (w.bm.frame h.pid).pageLatch = l := by
  obtain ⟨l, hl⟩ := Option.ne_none_iff_exists'.mp (hh.acquired h hm)
  exact ⟨l, hl, by simp only [hh.latch, heldLatch, holdOf_of_mem hh.nodup hm, hl, Option.getD_some]⟩

/-- A held page is fixed. -/
theorem fixed_of_mem (hh : Holding w₀ w held) (hm : h ∈ held) : w.bm.Fixed h.pid := by
  obtain ⟨l, hl, hw⟩ := hh.latch_of_mem hm
  rw [BufferManager.Fixed, hw]
  exact BufferManager.Latch.acquire_ne_unlocked hl

/-- A held page is being written exactly when its hold says so. -/
theorem written_of_mem (hh : Holding w₀ w held) (hm : h ∈ held) : w.pending h.pid = h.written := by
  rw [hh.pending, hh.fresh h hm, heldWritten, holdOf_of_mem hh.nodup hm, Bool.false_or]

/-- A `fix_page` that returns adds a hold of its page. -/
theorem fix (hh : Holding w₀ w held) (hp : p ∉ held.map Hold.pid) (hlen : held.length ≤ 2)
    {ex : Bool} {bm' : BufferManager (Node K V)} (hfix : BufferManager.fixPage p ex w.bm = .ok () bm') :
    Holding w₀ { w with bm := bm', trace := w.trace ++ [.fix p ex] } (⟨p, ex, false⟩ :: held) := by
  have hi := hh.sound.inv
  have hbase : (w.bm.frame p).pageLatch = (w₀.bm.frame p).pageLatch := by
    rw [hh.latch, heldLatch_of_not_mem _ hp]
  obtain ⟨l, hl, hl'⟩ := hi.fixPage_ok hfix
  have hpend : w.pending p = false :=
    hh.sound.coherent.not_pending_of_acquire (p := p) (by rw [World.session, hl]; simp)
  obtain ⟨evs, ht, hl1, hw1⟩ := hh.trace
  have hinv : BufferManager.Inv bm' := by simpa [hfix] using hi.fixPage p ex
  have hcoh : BufferManager.Coherent ⟨bm', w.mem, w.pending⟩ := by
    simpa [World.session, hfix] using hh.sound.coherent.fixPage_result hi p ex
  have hcount : bm'.pageCount = w₀.bm.pageCount := by
    simpa [hfix, hh.pageCount] using hi.fixPage_pageCount (p := p) ex
  refine ⟨⟨hinv, hcoh⟩, hcount, hh.nodup.cons hp, fun q => ?_, ?_, fun q => ?_, ?_, evs ++ [.fix p ex],
    by rw [ht, List.append_assoc], ?_, ?_⟩
  · rw [heldLatch, holdOf_cons]
    by_cases hq : p = q
    · subst hq; rw [if_pos rfl]; simp only [hl', ← hbase, hl, Option.getD_some]
    · have := (hi.fixPage_latch ex q).1 (Ne.symm hq)
      rw [hfix, BufferManager.resultState_ok] at this
      rw [if_neg hq, this, hh.latch, heldLatch]
  · intro x hx
    rcases List.mem_cons.mp hx with rfl | hx
    · rw [← hbase, hl]; simp
    · exact hh.acquired x hx
  · rw [hh.pending, heldWritten, heldWritten, holdOf_cons]
    by_cases hq : p = q
    · subst hq; rw [if_pos rfl, holdOf_eq_none hp]
    · rw [if_neg hq]
  · intro x hx
    rcases List.mem_cons.mp hx with rfl | hx
    · simpa [hh.pending, heldWritten_of_not_mem hp] using hpend
    · exact hh.fresh x hx
  · rw [latchHolds_append, hl1]
    simp [latchHolds, hlen]
  · rw [writeHolds_append, hw1]; rfl

/-- A `fix_page` that throws leaves the holds as they were. -/
theorem fixError (hh : Holding w₀ w held) {ex : Bool} {e : BufferError} {bm' : BufferManager (Node K V)}
    (hfix : BufferManager.fixPage p ex w.bm = .error e bm') : Holding w₀ { w with bm := bm' } held := by
  have hi := hh.sound.inv
  have hinv : BufferManager.Inv bm' := by simpa [hfix] using hi.fixPage p ex
  have hcoh : BufferManager.Coherent ⟨bm', w.mem, w.pending⟩ := by
    simpa [World.session, hfix] using hh.sound.coherent.fixPage_result hi p ex
  have hcount : bm'.pageCount = w₀.bm.pageCount := by
    simpa [hfix, hh.pageCount] using hi.fixPage_pageCount (p := p) ex
  refine ⟨⟨hinv, hcoh⟩, hcount, hh.nodup, fun q => ?_, hh.acquired, hh.pending, hh.fresh, hh.trace⟩
  rw [(hi.fixPage_latch ex q).2 e bm' hfix, hh.latch]

/-- From a clean start, a `fix_page` of a page not held, made holding at most two, does not
throw: its latch is free, and a resident frame the operation does not hold is free too. -/
theorem fix_ne_error (hh : Holding w₀ w held) (hc : w₀.Clean) (hp : p ∉ held.map Hold.pid)
    (hlen : held.length ≤ 2) {ex : Bool} (e : BufferError) (bm' : BufferManager (Node K V)) :
    BufferManager.fixPage p ex w.bm ≠ .error e bm' := by
  have hfree : ∀ q, q ∉ held.map Hold.pid → (w.bm.frame q).pageLatch = .unlocked := fun q hq => by
    rw [hh.latch, heldLatch_of_not_mem _ hq]; exact Classical.not_not.mp (hc.1 q)
  cases BufferManager.fixPage_cases hh.sound.inv p ex with
  | blocked hl _ _ => cases ex <;> simp [hfree p hp, Latch.acquire, Latch.lock, Latch.lockShared] at hl
  | fifoHit _ _ _ hfix => rw [hfix]; simp
  | lruHit _ _ _ hfix => rw [hfix]; simp
  | loadFree _ _ _ _ _ hfix => rw [hfix]; simp
  | loadFifo _ _ _ _ _ _ _ _ _ hfix => rw [hfix]; simp
  | loadLru _ _ _ _ _ _ _ _ _ _ hfix => rw [hfix]; simp
  | full _ _ hroom hf hl _ =>
    have hsub : w.bm.fifoList ++ w.bm.lruList ⊆ held.map Hold.pid := fun q hq => by
      by_contra hq'
      have hu : w.bm.unfixed q = true := by simp [BufferManager.unfixed, hfree q hq']
      rcases List.mem_append.mp hq with hq | hq
      · exact List.find?_eq_none.mp hf q hq hu
      · exact List.find?_eq_none.mp hl q hq hu
    have hle := (hh.sound.inv.nodup.subperm hsub).length_le
    simp only [List.length_append, List.length_map] at hle
    have := hc.2
    have := hh.pageCount
    exact fun _ => hroom (by omega)

/-- `unfix_page` of a held page, dirty when it was written and clean under a shared hold,
drops the hold and gives the latch back. -/
theorem unfix (hh : Holding w₀ w held) (hm : h ∈ held) {d : Bool} (hd : h.written = true → d = true)
    (hx : d = true → h.exclusive = true) :
    Holding w₀ { w with
      trace := w.trace ++ [.unfix h.pid d]
      bm := BufferManager.resultState (BufferManager.unfixPage h.pid d w.bm)
      pending := Function.update w.pending h.pid false } (held.erase h) := by
  obtain ⟨l, hl, hw⟩ := hh.latch_of_mem hm
  obtain ⟨evs, ht, hl1, hw1⟩ := hh.trace
  refine ⟨⟨hh.sound.inv.unfixPage (hh.fixed_of_mem hm) d,
    hh.sound.coherent.unfixPage fun hp => hd (by rw [← hh.written_of_mem hm]; exact hp)⟩,
    by simpa [BufferManager.unfixPage_run] using hh.pageCount, nodup_erase hh.nodup h, fun q => ?_,
    fun x hx' => hh.acquired x (List.mem_of_mem_erase hx'), fun q => ?_,
    fun x hx' => hh.fresh x (List.mem_of_mem_erase hx'), evs ++ [.unfix h.pid d],
    by rw [ht, List.append_assoc], ?_, ?_⟩
  · simp only [BufferManager.unfixPage_run, BufferManager.resultState_ok, BufferManager.frame_mk_pageTable,
      BufferManager.frame_updateFrame]
    rw [heldLatch, holdOf_erase hh.nodup hm]
    by_cases hq : q = h.pid
    · subst hq
      rw [if_pos rfl, if_pos rfl]
      show (w.bm.frame h.pid).pageLatch.unlock = _
      rw [hw]; exact BufferManager.Latch.unlock_of_acquire hl
    · rw [if_neg hq, if_neg (Ne.symm hq), hh.latch]; rfl
  · rw [heldWritten, holdOf_erase hh.nodup hm]
    by_cases hq : q = h.pid
    · subst hq; simp [hh.fresh h hm]
    · dsimp only
      rw [Function.update_noteq hq, if_neg (Ne.symm hq), hh.pending]; rfl
  · rw [latchHolds_append, hl1]
    simp [latchHolds, List.mem_map_of_mem _ hm, map_pid_erase hh.nodup hm]
  · rw [writeHolds_append, hw1]
    have hf : held.find? (·.pid = h.pid) = some h := holdOf_of_mem hh.nodup hm
    simp only [writeHolds, Option.some_bind, hf]
    rw [if_pos ⟨hd, hx⟩]

/-- A node write to a page held exclusively marks its hold written. -/
theorem write (hh : Holding w₀ w held) (hm : h ∈ held) (hx : h.exclusive = true) (n : Node K V) :
    Holding w₀ { w with
      trace := w.trace ++ [.write h.pid]
      bm := w.bm.writeData h.pid n
      mem := Function.update w.mem h.pid n
      pending := Function.update w.pending h.pid true } (markWritten h.pid held) := by
  obtain ⟨l, hl, hw⟩ := hh.latch_of_mem hm
  rw [hx] at hl
  have hex : (w.bm.frame h.pid).pageLatch = .exclusive := hw.trans (BufferManager.Latch.acquire_true hl)
  have hmark : ∀ x ∈ markWritten h.pid held, ∃ y ∈ held, y.pid = x.pid ∧ y.exclusive = x.exclusive := by
    intro x hx'
    obtain ⟨y, hy, rfl⟩ := List.mem_map.mp hx'
    exact ⟨y, hy, (pid_mark y).symm, (exclusive_mark y).symm⟩
  obtain ⟨evs, ht, hl1, hw1⟩ := hh.trace
  refine ⟨⟨hh.sound.inv.write hex n, hh.sound.coherent.write hex n⟩,
    by simpa [BufferManager.writeData] using hh.pageCount, by simpa using hh.nodup, fun q => ?_,
    fun x hx' => ?_, fun q => ?_, fun x hx' => ?_, evs ++ [.write h.pid],
    by rw [ht, List.append_assoc], ?_, ?_⟩
  · rw [heldLatch_markWritten, ← hh.latch]
    by_cases hq : q = h.pid <;> simp [BufferManager.writeData, hq]
  · obtain ⟨y, hy, hp, he⟩ := hmark x hx'
    rw [← hp, ← he]; exact hh.acquired y hy
  · by_cases hq : q = h.pid
    · subst hq; simp [heldWritten_markWritten_self hh.nodup hm]
    · dsimp only
      rw [Function.update_noteq hq, hh.pending, heldWritten_markWritten_of_ne hq]
  · obtain ⟨y, hy, hp, -⟩ := hmark x hx'
    rw [← hp]; exact hh.fresh y hy
  · rw [latchHolds_append, hl1]; simp [latchHolds]
  · rw [writeHolds_append, hw1]
    have hf : held.find? (·.pid = h.pid) = some h := holdOf_of_mem hh.nodup hm
    simp [writeHolds, hf, hx]

/-- A held page is loaded, and its frame holds the map's bytes. -/
theorem getData_run (hh : Holding w₀ w held) (hm : h ∈ held) : getData h.pid w = .ok (w.mem h.pid) w := by
  have hres := hh.sound.inv.fixed _ (hh.fixed_of_mem hm)
  obtain ⟨d, hd⟩ := Option.isSome_iff_exists.mp ((hh.sound.inv.data _).mpr hres)
  have hdm : d = w.mem h.pid := hh.sound.coherent.data _ _ hd
  rcases hres with hf | hl
  · have hs := (hh.sound.inv.inFifo _).mpr hf
    simp only [getData, bind, EStateM.bind, get, getThe, MonadStateOf.get, EStateM.get, hs, hd, hdm]; rfl
  · have hs := (hh.sound.inv.inLru _).mpr hl
    simp only [getData, bind, EStateM.bind, get, getThe, MonadStateOf.get, EStateM.get, hs, hd, hdm]; rfl

/-- Runs compose: an operation that ended holding nothing is a start for the next. -/
theorem trans {w₁ : World K V} (h₁ : Holding w₀ w₁ []) (h₂ : Holding w₁ w held) : Holding w₀ w held := by
  have hl : ∀ q, (w₁.bm.frame q).pageLatch = (w₀.bm.frame q).pageLatch := fun q => h₁.latch q
  have hp : ∀ q, w₁.pending q = w₀.pending q := fun q => by simpa [heldWritten, holdOf] using h₁.pending q
  obtain ⟨evs₁, ht₁, hl₁, hw₁⟩ := h₁.trace
  obtain ⟨evs₂, ht₂, hl₂, hw₂⟩ := h₂.trace
  refine ⟨h₂.sound, h₂.pageCount.trans h₁.pageCount, h₂.nodup, fun q => by rw [h₂.latch, hl],
    fun h hm => by rw [← hl]; exact h₂.acquired h hm, fun q => by rw [h₂.pending, hp],
    fun h hm => by rw [← hp]; exact h₂.fresh h hm, evs₁ ++ evs₂, by rw [ht₂, ht₁, List.append_assoc], ?_, ?_⟩
  · rw [latchHolds_append, hl₁]; exact hl₂
  · rw [writeHolds_append, hw₁]; exact hw₂

/-- An operation that ended holding nothing left every latch as it found it. -/
theorem latch_eq (hh : Holding w₀ w []) (q : Pid) : (w.bm.frame q).pageLatch = (w₀.bm.frame q).pageLatch :=
  hh.latch q

/-- A clean start stays clean across an operation that ended holding nothing. -/
theorem clean (hh : Holding w₀ w []) (hc : w₀.Clean) : w.Clean :=
  ⟨fun q => by rw [BufferManager.Fixed, hh.latch_eq]; exact hc.1 q, hh.pageCount ▸ hc.2⟩

end Holding

-- ============================================================ the primitives

section primitives

variable {w₀ w : World K V} {held : List Hold} {h : Hold} {p : Pid} {α : Type}
  {Q : α → World K V → Prop} {E : TreeError → World K V → Prop}

/-- A returning `fix_page` of the buffer manager, traced. -/
theorem run_fixPage_ok {ex : Bool} {bm' : BufferManager (Node K V)}
    (hfix : BufferManager.fixPage p ex w.bm = .ok () bm') :
    fixPage p ex w = .ok () { w with bm := bm', trace := w.trace ++ [.fix p ex] } := by
  simp only [fixPage, bind, EStateM.bind, liftBuffer, hfix]; rfl

/-- A throwing `fix_page` of the buffer manager becomes the operation's error. -/
theorem run_fixPage_error {ex : Bool} {e : BufferError} {bm' : BufferManager (Node K V)}
    (hfix : BufferManager.fixPage p ex w.bm = .error e bm') :
    fixPage p ex w = .error (.buffer e) { w with bm := bm' } := by
  simp only [fixPage, bind, EStateM.bind, liftBuffer, hfix]

/-- `unfix_page`, traced, with the page no longer being written. -/
theorem run_unfixPage (p : Pid) (d : Bool) (w : World K V) :
    unfixPage p d w = .ok () { w with
      trace := w.trace ++ [.unfix p d]
      bm := BufferManager.resultState (BufferManager.unfixPage p d w.bm)
      pending := Function.update w.pending p false } := rfl

/-- A write of a node into its page: the ghost page map follows, and the page is being written. -/
theorem run_setData (p : Pid) (n : Node K V) (w : World K V) :
    setData p n w = .ok () { w with
      trace := w.trace ++ [.write p]
      bm := w.bm.writeData p n
      mem := Function.update w.mem p n
      pending := Function.update w.pending p true } := rfl

/-- `fix_page` of a page the operation does not hold, made holding at most two: it adds a
hold, or throws keeping the holds, and then only from a start that is not clean. -/
theorem wp_fixPage_bind (hh : Holding w₀ w held) (hp : p ∉ held.map Hold.pid) (hlen : held.length ≤ 2)
    {ex : Bool} (f : Unit → TreeM K V α)
    (hq : ∀ w', Holding w₀ w' (⟨p, ex, false⟩ :: held) → w'.tree = w.tree → w'.mem = w.mem →
      Wp (f ()) w' Q E)
    (he : ∀ e w', Holding w₀ w' held → w'.tree = w.tree → w'.mem = w.mem → ¬ w₀.Clean →
      E (.buffer e) w') :
    Wp (fixPage p ex >>= f) w Q E := by
  rw [wp_bind]
  rcases hfix : BufferManager.fixPage p ex w.bm with ⟨⟨⟩, bm'⟩ | ⟨e, bm'⟩
  · rw [Wp, run_fixPage_ok hfix]
    exact hq _ (hh.fix hp hlen hfix) rfl rfl
  · rw [Wp, run_fixPage_error hfix]
    exact he _ _ (hh.fixError hfix) rfl rfl fun hc => hh.fix_ne_error hc hp hlen e bm' hfix

/-- `unfix_page` of a held page, dirty when written under the hold and clean under a shared
hold, drops the hold. -/
theorem wp_unfixPage_bind (hh : Holding w₀ w held) (hm : h ∈ held) {d : Bool}
    (hd : h.written = true → d = true) (hx : d = true → h.exclusive = true) (f : Unit → TreeM K V α)
    (hq : ∀ w', Holding w₀ w' (held.erase h) → w'.tree = w.tree → w'.mem = w.mem → Wp (f ()) w' Q E) :
    Wp (unfixPage h.pid d >>= f) w Q E := by
  rw [wp_bind, Wp, run_unfixPage]
  exact hq _ (hh.unfix hm hd hx) rfl rfl

/-- The last `unfix_page` of a block. -/
theorem wp_unfixPage {Q : Unit → World K V → Prop} (hh : Holding w₀ w held) (hm : h ∈ held) {d : Bool}
    (hd : h.written = true → d = true) (hx : d = true → h.exclusive = true)
    (hq : ∀ w', Holding w₀ w' (held.erase h) → w'.tree = w.tree → w'.mem = w.mem → Q () w') :
    Wp (unfixPage h.pid d) w Q E := by
  rw [Wp, run_unfixPage]
  exact hq _ (hh.unfix hm hd hx) rfl rfl

/-- A node write to a page held exclusively: the page map takes the node. -/
theorem wp_setData_bind (hh : Holding w₀ w held) (hm : h ∈ held) (hx : h.exclusive = true)
    (n : Node K V) (f : Unit → TreeM K V α)
    (hq : ∀ w', Holding w₀ w' (markWritten h.pid held) → w'.tree = w.tree →
      w'.mem = Function.update w.mem h.pid n → Wp (f ()) w' Q E) :
    Wp (setData h.pid n >>= f) w Q E := by
  rw [wp_bind, Wp, run_setData]
  exact hq _ (hh.write hm hx n) rfl rfl

/-- A read of a held page returns the map's node. -/
theorem wp_getData_bind (hh : Holding w₀ w held) (hm : h ∈ held) (f : Node K V → TreeM K V α)
    (hq : Wp (f (w.mem h.pid)) w Q E) : Wp (getData h.pid >>= f) w Q E := by
  rw [wp_bind, Wp, hh.getData_run hm]
  exact hq

/-- An `assert` whose condition holds passes the run on. -/
theorem wp_check_bind {c : Prop} [Decidable c] (what : String) (f : Unit → TreeM K V α) (hc : c)
    (hq : Wp (f ()) w Q E) : Wp (check c what >>= f) w Q E := by
  rw [wp_bind, wp_check, if_pos hc]
  exact hq

/-- A page method that returns passes its value on. -/
theorem wp_liftAssert_bind {β : Type} {r : Except String β} {b : β} (hr : r = .ok b)
    (f : β → TreeM K V α) (hq : Wp (f b) w Q E) : Wp (liftAssert r >>= f) w Q E := by
  subst hr; exact hq

/-- `create_new_node` in front of the rest of the run. -/
theorem wp_createNewNode_bind (f : Pid → TreeM K V α) :
    Wp (createNewNode >>= f) w Q E ↔ Wp (f (pidAt w.tree.segmentId w.tree.nodeCount))
      { w with tree := { w.tree with nodeCount := w.tree.nodeCount + 1 } } Q E := by
  rw [wp_bind, wp_createNewNode]

end primitives

end BTree

end SimpleDb
