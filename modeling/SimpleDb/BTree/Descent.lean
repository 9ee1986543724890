import SimpleDb.BTree.Run

/-!
The descents of `lookup` and `erase`, and what the three operations share: the latches a
descent holds on its way down `key`'s path (`Wf.inner_step`, `Wf.leaf`), and the move to
the next level.

# The holds of a descent

A descent holds the page it stands on and, below the root, its parent, each in the mode
the operation asks for a node of its level: `lookup` shares every latch, `erase` and
`insert` take the leaf exclusively. `moveDown` releases the parent and takes the child;
when the child's `fix_page` throws, the operation still holds the page it stood on.

# Throwing

An operation that throws has run out of fuel, or got an exception from `fix_page`, which a
clean start rules out (`Thrown`). Either way it still holds at most two latches, the ones it
held at the throw, and has released every other latch it took exactly once.
-/

namespace SimpleDb

namespace BTree

variable {K V : Type}

-- ============================================================ the holds of a descent

/-- The parent's hold, below the root: in the mode of its level, not written. -/
def parentHold (pages : Pid → Node K V) (mode : Nat → Bool) (parent : Option Pid) : List Hold :=
  parent.toList.map fun p => ⟨p, mode (pages p).level, false⟩

/-- The holds of a descent standing on `current` below `parent`. -/
def descentHolds (pages : Pid → Node K V) (mode : Nat → Bool) (parent : Option Pid)
    (current : Pid) : List Hold :=
  ⟨current, mode (pages current).level, false⟩ :: parentHold pages mode parent

theorem length_parentHold (pages : Pid → Node K V) (mode : Nat → Bool) (parent : Option Pid) :
    (parentHold pages mode parent).length ≤ 1 := by
  cases parent <;> simp [parentHold]

/-- The hold of the page a descent stands on, once written. -/
theorem markWritten_descentHolds {pages : Pid → Node K V} {mode : Nat → Bool} {parent : Option Pid}
    {current : Pid} (hne : ∀ p ∈ parent, p ≠ current) :
    markWritten current (descentHolds pages mode parent current) =
      ⟨current, mode (pages current).level, true⟩ :: parentHold pages mode parent := by
  cases parent with
  | none => simp [descentHolds, parentHold, markWritten]
  | some p => simp [descentHolds, parentHold, markWritten, hne p rfl]

section moves

variable {w₀ w : World K V} {α : Type} {Q : α → World K V → Prop} {E : TreeError → World K V → Prop}
  {pages : Pid → Node K V} {mode : Nat → Bool}

/-- `if (parentFrame) unfix_page(*parentFrame, false)`: the parent's hold goes. -/
theorem wp_unfixParent_bind {parent : Option Pid} (pre : List Hold)
    (hh : Holding w₀ w (pre ++ parentHold pages mode parent)) (f : Unit → TreeM K V α)
    (hq : ∀ w', Holding w₀ w' pre → w'.tree = w.tree → w'.mem = w.mem → Wp (f ()) w' Q E) :
    Wp (unfixParent parent >>= f) w Q E := by
  cases parent with
  | none => simpa [parentHold] using hq w (by simpa [parentHold] using hh) rfl rfl
  | some p =>
    have hp : (⟨p, mode (pages p).level, false⟩ : Hold) ∉ pre := fun hm => by
      have := hh.nodup
      rw [List.map_append, List.nodup_append] at this
      exact this.2.2 (List.mem_map_of_mem Hold.pid hm) (by simp [parentHold])
    refine wp_unfixPage_bind (h := ⟨p, mode (pages p).level, false⟩) hh (by simp [parentHold])
      (by simp) (by simp) f fun w' hh' ht hm => hq w' ?_ ht hm
    simpa [parentHold, List.erase_append_right _ hp] using hh'

/-- `moveDown`: the parent released, the child fixed in the mode of its level. -/
theorem wp_moveDown_bind {parent : Option Pid} {current child : Pid}
    (hh : Holding w₀ w (descentHolds pages mode parent current)) (hne : child ≠ current)
    (f : Unit → TreeM K V α)
    (hq : ∀ w', Holding w₀ w' (descentHolds pages mode (some current) child) → w'.tree = w.tree →
      w'.mem = w.mem → Wp (f ()) w' Q E)
    (he : ∀ e w', Holding w₀ w' [⟨current, mode (pages current).level, false⟩] → w'.tree = w.tree →
      w'.mem = w.mem → ¬ w₀.Clean → E (.buffer e) w') :
    Wp (moveDown parent child (mode (pages child).level) >>= f) w Q E := by
  rw [moveDown, bind_assoc]
  refine wp_unfixParent_bind [_] hh _ fun w₁ hh₁ ht₁ hm₁ => ?_
  refine wp_fixPage_bind hh₁ (by simpa using hne) (by simp) _ (fun w₂ hh₂ ht₂ hm₂ => ?_)
    fun e w₂ hh₂ ht₂ hm₂ hc => he e w₂ hh₂ (ht₂.trans ht₁) (hm₂.trans hm₁) hc
  exact hq w₂ hh₂ (ht₂.trans ht₁) (hm₂.trans hm₁)

end moves

-- ============================================================ throwing

/-- How a run from `w₀` that throws `e` leaves the world `w`: out of fuel, or with an
exception of `fix_page`, which a clean start rules out; still holding the latches it held
at the throw, at most two. -/
structure Thrown (w₀ w : World K V) (e : TreeError) : Prop where
  cause : e = .outOfFuel ∨ ((∃ be, e = .buffer be) ∧ ¬ w₀.Clean)
  holds : ∃ held, Holding w₀ w held ∧ held.length ≤ 2

/-- A throw after a run that ended holding nothing. -/
theorem Thrown.trans {w₀ w₁ w : World K V} {e : TreeError} (h₁ : Holding w₀ w₁ [])
    (h : Thrown w₁ w e) : Thrown w₀ w e := by
  obtain ⟨hc, held, hh, hl⟩ := h
  exact ⟨hc.imp_right fun ⟨he, hn⟩ => ⟨he, fun c => hn (h₁.clean c)⟩, held, h₁.trans hh, hl⟩

/-- A throw of `fix_page` holding `held`. -/
theorem Thrown.fix {w₀ w : World K V} {held : List Hold} (hh : Holding w₀ w held)
    (hl : held.length ≤ 2) (hc : ¬ w₀.Clean) (be : BufferError) : Thrown w₀ w (.buffer be) :=
  ⟨.inr ⟨⟨be, rfl⟩, hc⟩, held, hh, hl⟩

/-- From a clean start, a run throws only out of fuel. -/
theorem Thrown.outOfFuel_of_clean {w₀ w : World K V} {e : TreeError} (h : Thrown w₀ w e)
    (hc : w₀.Clean) : e = .outOfFuel :=
  h.cause.resolve_right fun ⟨_, hn⟩ => hn hc

/-- Running out of fuel holding `held`. -/
theorem Thrown.fuel {w₀ w : World K V} {held : List Hold} (hh : Holding w₀ w held)
    (hl : held.length ≤ 2) : Thrown w₀ w .outOfFuel :=
  ⟨.inl rfl, held, hh, hl⟩

-- ============================================================ `lookup`

section lookup

variable [LinearOrder K] {cap : Capacity} {mf : Nat} {w₀ : World K V}

/-- The descent of `lookup` from `d` steps down `key`'s path: it returns the tree's binding
of `key` having released every latch, or throws, and changes neither the tree nor the map.
It runs out of fuel only when the fuel is less than the levels left. -/
theorem wp_lookupDescend (hw : Wf cap mf w₀.mem w₀.tree) (key : K) :
    ∀ (fuel d : Nat) (parent : Option Pid) (w : World K V), d ≤ w₀.tree.treeHeight - 1 →
      Holding w₀ w (descentHolds w₀.mem (fun _ => false) parent (descend w₀.mem key d w₀.tree.root)) →
      w.tree = w₀.tree → w.mem = w₀.mem →
      Wp (lookupDescend key fuel parent (descend w₀.mem key d w₀.tree.root)) w
        (fun r w' => r = contents w₀.mem w₀.tree key ∧ Holding w₀ w' [] ∧ w'.tree = w₀.tree ∧
          w'.mem = w₀.mem)
        (fun e w' => Thrown w₀ w' e ∧ (e = .outOfFuel → fuel + d < w₀.tree.treeHeight) ∧
          w'.tree = w₀.tree ∧ w'.mem = w₀.mem)
  | 0, d, parent, w, hd, hh, ht, hm =>
    ⟨.fuel hh (by have := length_parentHold w₀.mem (fun _ => false) parent; simp [descentHolds]; omega),
      fun _ => by have := hw.height_pos; omega, ht, hm⟩
  | fuel + 1, d, parent, w, hd, hh, ht, hm => by
    rw [lookupDescend]
    refine wp_getData_bind hh (List.mem_cons_self _ _) _ ?_
    rw [hm]
    rcases Nat.lt_or_ge d (w₀.tree.treeHeight - 1) with hlt | hge
    · obtain ⟨hleaf, hpos, hchild, hne⟩ := hw.inner_step key hlt
      simp only [hleaf, Bool.false_eq_true, if_false]
      refine wp_check_bind _ _ hpos.le ?_
      rw [hchild]
      refine wp_moveDown_bind hh hne _ (fun w' hh' ht' hm' => ?_) fun e w' hh' ht' hm' hc => ?_
      · exact wp_mono (wp_lookupDescend hw key fuel (d + 1) _ w' (by omega) hh' (ht'.trans ht)
          (hm'.trans hm)) (fun _ _ h => h) fun _ _ ⟨h, hf, ht, hm⟩ => ⟨h, fun e => by
            have := hf e; omega, ht, hm⟩
      · exact ⟨.fix hh' (by simp) hc e, by simp, ht'.trans ht, hm'.trans hm⟩
    · obtain rfl : d = w₀.tree.treeHeight - 1 := le_antisymm hd hge
      obtain ⟨hleaf, -, hpos⟩ := hw.leaf key
      simp only [hleaf, if_true]
      refine wp_check_bind _ _ hpos ?_
      refine wp_unfixParent_bind [_] hh _ fun w₁ hh₁ ht₁ hm₁ => ?_
      refine wp_unfixPage_bind hh₁ (List.mem_singleton_self _) (fun h => by cases h) (fun h => by cases h)
        _ fun w₂ hh₂ ht₂ hm₂ => ?_
      exact ⟨hw.leaf_value key, by simpa using hh₂, ht₂.trans (ht₁.trans ht), hm₂.trans (hm₁.trans hm)⟩

/-- `lookup(key)` on a well-formed tree returns the tree's binding of `key`, leaving every
latch as it found it and the tree and the map unchanged; or it throws, and then out of
fuel only with no more fuel than the tree's height. -/
theorem wp_lookup (hw : Wf cap mf w₀.mem w₀.tree) (hs : w₀.Sound) (key : K) (fuel : Nat) :
    Wp (lookup key fuel) w₀
      (fun r w' => r = contents w₀.mem w₀.tree key ∧ Holding w₀ w' [] ∧ w'.tree = w₀.tree ∧
        w'.mem = w₀.mem)
      (fun e w' => Thrown w₀ w' e ∧ (e = .outOfFuel → fuel ≤ w₀.tree.treeHeight) ∧
        w'.tree = w₀.tree ∧ w'.mem = w₀.mem) := by
  cases fuel with
  | zero => exact ⟨.fuel (.start hs) (by simp), fun _ => Nat.zero_le _, rfl, rfl⟩
  | succ fuel =>
    rw [lookup, wp_get_bind]
    refine wp_fixPage_bind (.start hs) (by simp) (by simp) _ (fun w₁ hh₁ ht₁ hm₁ => ?_)
      fun e w₁ hh₁ ht₁ hm₁ hc => ⟨.fix hh₁ (by simp) hc e, by simp, ht₁, hm₁⟩
    rw [wp_get_bind, ht₁, if_neg (not_not.mpr rfl)]
    exact wp_mono (wp_lookupDescend hw key fuel 0 none w₁ (Nat.zero_le _) hh₁ ht₁ hm₁)
      (fun _ _ h => h) fun _ _ ⟨h, hf, ht, hm⟩ => ⟨h, fun e => by have := hf e; omega, ht, hm⟩

end lookup

-- ============================================================ `erase`

section erase

variable [LinearOrder K] {cap : Capacity} {mf : Nat} {w₀ : World K V}

/-- `erase` takes a node's latch exclusively exactly when it is a leaf. -/
def eraseMode (level : Nat) : Bool := level == 0

/-- The modes `erase` writes, `treeHeight == 1` for the root and `level == 1` of the parent
for a child, are those of the node's own level. -/
theorem Wf.eraseMode_descend {pages : Pid → Node K V} {t : BTree} (hw : Wf cap mf pages t) (key : K)
    {d : Nat} (hd : d < t.treeHeight - 1) :
    ((pages (BTree.descend pages key d t.root)).level == 1) =
      eraseMode (pages (BTree.descend pages key (d + 1) t.root)).level := by
  rw [eraseMode, hw.level_descend key hd.le, hw.level_descend key hd]
  cases h : t.treeHeight - 1 - d == 1 <;> simp at h ⊢ <;> omega

theorem Wf.eraseMode_root {pages : Pid → Node K V} {t : BTree} (hw : Wf cap mf pages t) :
    (t.treeHeight == 1) = eraseMode (pages t.root).level := by
  have := hw.height_pos
  rw [eraseMode, hw.sub.level]
  cases h : t.treeHeight == 1 <;> simp at h ⊢ <;> omega

/-- The descent of `erase` from `d` steps down `key`'s path: it unbinds `key`, writing the
leaf only when it held `key`, keeps the tree well formed, and releases every latch; or it
throws having written nothing. -/
theorem wp_eraseDescend (hw : Wf cap mf w₀.mem w₀.tree) (key : K) :
    ∀ (fuel d : Nat) (parent : Option Pid) (w : World K V), d ≤ w₀.tree.treeHeight - 1 →
      Holding w₀ w (descentHolds w₀.mem eraseMode parent (descend w₀.mem key d w₀.tree.root)) →
      w.tree = w₀.tree → w.mem = w₀.mem →
      Wp (eraseDescend key fuel parent (descend w₀.mem key d w₀.tree.root)) w
        (fun _ w' => Wf cap mf w'.mem w'.tree ∧
          contents w'.mem w'.tree = Function.update (contents w₀.mem w₀.tree) key none ∧
          Holding w₀ w' [] ∧ w'.tree = w₀.tree)
        (fun e w' => Thrown w₀ w' e ∧ (e = .outOfFuel → fuel + d < w₀.tree.treeHeight) ∧
          w'.tree = w₀.tree ∧ w'.mem = w₀.mem)
  | 0, d, parent, w, hd, hh, ht, hm =>
    ⟨.fuel hh (by have := length_parentHold w₀.mem eraseMode parent; simp [descentHolds]; omega),
      fun _ => by have := hw.height_pos; omega, ht, hm⟩
  | fuel + 1, d, parent, w, hd, hh, ht, hm => by
    rw [eraseDescend]
    refine wp_getData_bind hh (List.mem_cons_self _ _) _ ?_
    rw [hm]
    rcases Nat.lt_or_ge d (w₀.tree.treeHeight - 1) with hlt | hge
    · obtain ⟨hleaf, hpos, hchild, hne⟩ := hw.inner_step key hlt
      simp only [hleaf, Bool.false_eq_true, if_false]
      refine wp_check_bind _ _ hpos.le ?_
      rw [hchild, hw.eraseMode_descend key hlt]
      refine wp_moveDown_bind hh hne _ (fun w' hh' ht' hm' => ?_) fun e w' hh' ht' hm' hc => ?_
      · exact wp_mono (wp_eraseDescend hw key fuel (d + 1) _ w' (by omega) hh' (ht'.trans ht)
          (hm'.trans hm)) (fun _ _ h => h) fun _ _ ⟨h, hf, ht, hm⟩ => ⟨h, fun e => by
            have := hf e; omega, ht, hm⟩
      · exact ⟨.fix hh' (by simp) hc e, by simp, ht'.trans ht, hm'.trans hm⟩
    · obtain rfl : d = w₀.tree.treeHeight - 1 := le_antisymm hd hge
      obtain ⟨hleaf, -, -⟩ := hw.leaf key
      obtain ⟨n', erased, hera, hkeep, hw', hc'⟩ := leafErase_update hw key
      simp only [hleaf, if_true]
      refine wp_liftAssert_bind hera _ ?_
      have hpar : ∀ p ∈ parent, p ≠ leafFor w₀.mem w₀.tree key := fun p hp e => by
        have := hh.nodup
        subst hp
        simp [descentHolds, parentHold, e] at this
      have hex : eraseMode (w₀.mem (leafFor w₀.mem w₀.tree key)).level = true := by
        simpa [Node.isLeaf, eraseMode] using hleaf
      cases erased with
      | true =>
        refine wp_setData_bind hh (List.mem_cons_self _ _) hex n' _ fun w₁ hh₁ ht₁ hm₁ => ?_
        rw [markWritten_descentHolds hpar] at hh₁
        refine wp_unfixParent_bind [_] hh₁ _ fun w₂ hh₂ ht₂ hm₂ => ?_
        refine wp_unfixPage_bind hh₂ (List.mem_singleton_self _) (fun _ => rfl) (fun _ => hex) _
          fun w₃ hh₃ ht₃ hm₃ => ?_
        have hmem : w₃.mem = Function.update w₀.mem (leafFor w₀.mem w₀.tree key) n' := by
          rw [hm₃, hm₂, hm₁, hm]
        have htree : w₃.tree = w₀.tree := ht₃.trans (ht₂.trans (ht₁.trans ht))
        exact ⟨by rw [hmem, htree]; exact hw', by rw [hmem, htree]; exact hc', by simpa using hh₃, htree⟩
      | false =>
        obtain rfl := hkeep rfl
        rw [Function.update_eq_self] at hw' hc'
        refine wp_unfixParent_bind [_] hh _ fun w₂ hh₂ ht₂ hm₂ => ?_
        refine wp_unfixPage_bind hh₂ (List.mem_singleton_self _) (fun h => by cases h)
          (fun h => by cases h) _ fun w₃ hh₃ ht₃ hm₃ => ?_
        have hmem : w₃.mem = w₀.mem := hm₃.trans (hm₂.trans hm)
        have htree : w₃.tree = w₀.tree := ht₃.trans (ht₂.trans ht)
        exact ⟨by rw [hmem, htree]; exact hw', by rw [hmem, htree]; exact hc', by simpa using hh₃, htree⟩

/-- `erase(key)` on a well-formed tree unbinds `key`, keeps the tree well formed and leaves
every latch as it found it; or it throws having written nothing, and then out of fuel only
with no more fuel than the tree's height. -/
theorem wp_erase (hw : Wf cap mf w₀.mem w₀.tree) (hs : w₀.Sound) (key : K) (fuel : Nat) :
    Wp (erase key fuel) w₀
      (fun _ w' => Wf cap mf w'.mem w'.tree ∧
        contents w'.mem w'.tree = Function.update (contents w₀.mem w₀.tree) key none ∧
        Holding w₀ w' [] ∧ w'.tree = w₀.tree)
      (fun e w' => Thrown w₀ w' e ∧ (e = .outOfFuel → fuel ≤ w₀.tree.treeHeight) ∧
        w'.tree = w₀.tree ∧ w'.mem = w₀.mem) := by
  cases fuel with
  | zero => exact ⟨.fuel (.start hs) (by simp), fun _ => Nat.zero_le _, rfl, rfl⟩
  | succ fuel =>
    rw [erase, wp_get_bind, wp_get_bind, hw.eraseMode_root]
    refine wp_fixPage_bind (.start hs) (by simp) (by simp) _ (fun w₁ hh₁ ht₁ hm₁ => ?_)
      fun e w₁ hh₁ ht₁ hm₁ hc => ⟨.fix hh₁ (by simp) hc e, by simp, ht₁, hm₁⟩
    rw [wp_get_bind, ht₁, if_neg (not_not.mpr rfl)]
    exact wp_mono (wp_eraseDescend hw key fuel 0 none w₁ (Nat.zero_le _) hh₁ ht₁ hm₁)
      (fun _ _ h => h) fun _ _ ⟨h, hf, ht, hm⟩ => ⟨h, fun e => by have := hf e; omega, ht, hm⟩

end erase

end BTree

end SimpleDb
