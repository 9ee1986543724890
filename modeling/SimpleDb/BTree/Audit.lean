import SimpleDb.BTree.Ops

/-!
Two monitors over the latch events of a run, replaying them against the latches the
operation holds. Each fails (`none`) at the first event that breaks its discipline and
returns the holds left at the end otherwise.

# Counting latches

`latchHolds` is the discipline of the operations over a small buffer: a `fix_page` is
called while at most two latches are held, and every `unfix_page` releases a latch the
operation holds. A run that ends with no hold has released every latch it took exactly
once.

# Writing under latches

`writeHolds` is the discipline the buffer manager's refinement asks of its client: a node
write is made under an exclusive hold of its page, a hold under which the page was
written is released dirty, and a shared hold is released clean.
-/

namespace SimpleDb

/-- A latch an operation holds: its page, its mode, and whether the page was written under
it. -/
structure Hold where
  pid : Pid
  exclusive : Bool
  written : Bool
  deriving DecidableEq, Repr

namespace BTree

/-- The pages whose latches the operation holds, newest first, replayed from its events:
`none` once it calls `fix_page` holding more than two latches, or releases a latch it does
not hold. -/
def latchHolds : List Pid → List Event → Option (List Pid)
  | held, [] => some held
  | held, .fix p _ :: es => if held.length ≤ 2 then latchHolds (p :: held) es else none
  | held, .write _ :: es => latchHolds held es
  | held, .unfix p _ :: es => if p ∈ held then latchHolds (held.erase p) es else none

/-- The page written under a hold. -/
def markWritten (p : Pid) (held : List Hold) : List Hold :=
  held.map fun h => if h.pid = p then { h with written := true } else h

/-- The holds of the operation, replayed from its events: `none` once it writes a page it
does not hold exclusively, releases a written page clean or a shared hold dirty, or
releases a latch it does not hold. -/
def writeHolds : List Hold → List Event → Option (List Hold)
  | held, [] => some held
  | held, .fix p ex :: es => writeHolds (⟨p, ex, false⟩ :: held) es
  | held, .write p :: es =>
    match held.find? (·.pid = p) with
    | some h => if h.exclusive then writeHolds (markWritten p held) es else none
    | none => none
  | held, .unfix p d :: es =>
    match held.find? (·.pid = p) with
    | some h => if (h.written → d = true) ∧ (d = true → h.exclusive) then writeHolds (held.erase h) es
      else none
    | none => none

theorem latchHolds_append (held : List Pid) (es es' : List Event) :
    latchHolds held (es ++ es') = (latchHolds held es).bind fun h => latchHolds h es' := by
  induction es generalizing held with
  | nil => rfl
  | cons e es ih =>
    cases e with
    | fix p _ => simp only [List.cons_append, latchHolds]; split_ifs <;> simp [ih]
    | write p => exact ih held
    | unfix p _ => simp only [List.cons_append, latchHolds]; split_ifs <;> simp [ih]

theorem writeHolds_append (held : List Hold) (es es' : List Event) :
    writeHolds held (es ++ es') = (writeHolds held es).bind fun h => writeHolds h es' := by
  induction es generalizing held with
  | nil => rfl
  | cons e es ih =>
    cases e with
    | fix p ex => exact ih _
    | write p =>
      simp only [List.cons_append, writeHolds]
      split
      · split_ifs <;> simp [ih]
      · rfl
    | unfix p d =>
      simp only [List.cons_append, writeHolds]
      split
      · split_ifs <;> simp [ih]
      · rfl

end BTree

end SimpleDb
