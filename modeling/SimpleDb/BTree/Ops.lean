import SimpleDb.BTree.Tree
import SimpleDb.Buffer.Cache

/-!
The operations of `btree.h` over the buffer manager, one thread at a time.

# The world

A tree operation runs in `TreeM`: state passing over a `World`, with exceptions that keep
the state, as `BufferM` has them. The world is the buffer manager holding the tree's
pages, the `BTree` fields, and two ghosts the code does not read. `mem` and `pending` are
the page map the buffer manager refines and the pages written since their exclusive fix
(`BufferManager.Session`): every page the tree reads is read through `get_data` of a
fixed frame, and the refinement says the bytes there are `mem`'s. `trace` lists the
run's latch events in order: each latch a `fix_page` call takes, each node write, each
`unfix_page` call; the statements about latches are statements about it.

# The operations

`lookup`, `erase` and `insert` are the code's `goto restart` loops, one pass per turn,
and its `while (!is_leaf())` descents, one level per turn; `parent` and `current` are the
frames the code holds. A node method writes its page in place: here the operation reads
the node with `getData`, computes the method, and writes the result with `setData`.
`insert`'s two split paths share `splitNode`, parametrised by the node kind's `split`, whose
first half, up to the writes of both halves, is `splitHalves`.
Every loop has a `fuel` argument, and runs out with `outOfFuel`; the code's loops have
none, and a theorem that an operation returns says that enough fuel makes it return.
-/

namespace SimpleDb

/-- The latch events of a run: a latch `fix_page` took, a node write, an `unfix_page` call. -/
inductive Event
  | fix (p : Pid) (exclusive : Bool)
  | write (p : Pid)
  | unfix (p : Pid) (isDirty : Bool)
  deriving DecidableEq, Repr

/-- What a tree operation throws: the buffer manager's errors, a failed `assert`, and the
model's running out of fuel. -/
inductive TreeError
  | buffer (e : BufferError)
  | assertion (what : String)
  | outOfFuel
  deriving DecidableEq, Repr

/-- The buffer manager, the tree's fields, and the ghosts: the page map the buffer manager
refines, the pages written since their exclusive fix, and the run's latch events. -/
structure World (K V : Type) where
  bm : BufferManager (Node K V)
  tree : BTree
  mem : Pid → Node K V
  pending : Pid → Bool
  trace : List Event

/-- Tree operations: state passing over the world, exceptions keeping the state. -/
abbrev TreeM (K V : Type) := EStateM TreeError (World K V)

namespace World

variable {K V : Type}

/-- The world before `BTree(segment_id, buffer_manager)` runs: no node yet, the ghost page
map what the buffer manager holds. -/
def init (bm : BufferManager (Node K V)) (segmentId : Nat) : World K V :=
  ⟨bm, ⟨segmentId, 0, 0, 0⟩, bm.view, fun _ => false, []⟩

/-- The buffer manager with its ghosts. -/
def session (w : World K V) : BufferManager.Session (Node K V) := ⟨w.bm, w.mem, w.pending⟩

end World

namespace BTree

variable {K V : Type} [LinearOrder K]

-- ============================================================ primitives

/-- A buffer-manager method, its exceptions rethrown as the tree's. -/
def liftBuffer {α : Type} (m : BufferM (Node K V) α) : TreeM K V α := fun w =>
  match m w.bm with
  | .ok a bm' => .ok a { w with bm := bm' }
  | .error e bm' => .error (.buffer e) { w with bm := bm' }

/-- A node method's `assert`s, failing as the tree's. -/
def liftAssert {α : Type} (r : Except String α) : TreeM K V α :=
  match r with
  | .ok a => pure a
  | .error what => throw (.assertion what)

/-- An `assert` of the tree code. -/
def check (c : Prop) [Decidable c] (what : String) : TreeM K V Unit :=
  if c then pure () else throw (.assertion what)

/-- Appends an event to the trace. -/
def record (e : Event) : TreeM K V Unit :=
  modify fun w => { w with trace := w.trace ++ [e] }

/-- `buffer_manager.fix_page(p, exclusive)`; the trace records the latch once it is taken. -/
def fixPage (p : Pid) (exclusive : Bool) : TreeM K V Unit := do
  liftBuffer (BufferManager.fixPage p exclusive)
  record (.fix p exclusive)

/-- `buffer_manager.unfix_page(frame, is_dirty)`; the page stops being written. -/
def unfixPage (p : Pid) (isDirty : Bool) : TreeM K V Unit := do
  record (.unfix p isDirty)
  liftBuffer (BufferManager.unfixPage p isDirty)
  modify fun w => { w with pending := Function.update w.pending p false }

/-- `if (parentFrame) buffer_manager.unfix_page(*parentFrame, false)`. -/
def unfixParent (parent : Option Pid) : TreeM K V Unit :=
  match parent with
  | some p => unfixPage p false
  | none => pure ()

/-- The move down the three descents share: the parent released, the child fixed. -/
def moveDown (parent : Option Pid) (child : Pid) (exclusive : Bool) : TreeM K V Unit := do
  unfixParent parent
  fixPage child exclusive

/-- `BufferFrame::get_data()` read as a node: asserts the page is loaded. -/
def getData (p : Pid) : TreeM K V (Node K V) := do
  let f := (← get).bm.frame p
  match f.pageState, f.data with
  | .inFifo, some n => pure n
  | .inLru, some n => pure n
  | _, _ => throw (.assertion "pageState == PageState::IN_FIFO || pageState == PageState::IN_LRU")

/-- A node method's writes to a page: the frame's data becomes `n`. -/
def setData (p : Pid) (n : Node K V) : TreeM K V Unit := do
  record (.write p)
  modify fun w => { w with
    bm := w.bm.writeData p n
    mem := Function.update w.mem p n
    pending := Function.update w.pending p true }

/-- `create_new_node()`: mints `(segment_id << 48) ^ nodeCount++`. -/
def createNewNode : TreeM K V Pid := do
  let t := (← get).tree
  modify fun w => { w with tree := { w.tree with nodeCount := t.nodeCount + 1 } }
  pure (pidAt t.segmentId t.nodeCount)

-- ============================================================ the constructor and `grow_root`

/-- `BTree(segment_id, buffer_manager)`: an empty leaf as the root, height one. -/
def create : TreeM K V Unit := do
  let pid ← createNewNode
  fixPage pid true
  let node ← getData pid
  setData pid { node with level := 0, count := 0 }
  modify fun w => { w with tree := { w.tree with root := pid } }
  modify fun w => { w with tree := { w.tree with treeHeight := 1 } }
  unfixPage pid true

/-- `grow_root(level, sep_key, left_child, right_child)`: a new inner root over the two
children, published as `root` before `treeHeight` grows. Returns the new root, still
fixed. -/
def growRoot (level : Nat) (sepKey : K) (leftChild rightChild : Pid) : TreeM K V Pid := do
  let pid ← createNewNode
  fixPage pid true
  let newRoot ← getData pid
  setData pid { newRoot with
    level := level
    count := 2
    keys := Function.update newRoot.keys 0 sepKey
    children := Function.update (Function.update newRoot.children 0 leftChild) 1 rightChild }
  modify fun w => { w with tree := { w.tree with root := pid } }
  modify fun w => { w with tree := { w.tree with treeHeight := w.tree.treeHeight + 1 } }
  pure pid

-- ============================================================ `lookup`

/-- The `while (!is_leaf())` loop of `lookup` and what follows it, from the frame
`current` with `parent` held above it. -/
def lookupDescend (key : K) : Nat → Option Pid → Pid → TreeM K V (Option V)
  | 0, _, _ => throw .outOfFuel
  | fuel + 1, parent, current => do
    let node ← getData current
    if node.isLeaf then
      let pos := node.leafLowerBound key
      check (pos.1 ≤ node.count) "pos.first <= leafNode.count"
      let val := if pos.2 then some (node.values pos.1) else none
      unfixParent parent
      unfixPage current false
      pure val
    else
      let pos := node.innerLowerBound key
      check (pos.1 ≤ node.count) "pos.first <= innerNode.count"
      moveDown parent (node.children pos.1) false
      lookupDescend key fuel (some current) (node.children pos.1)

/-- `lookup(key)`: each turn is one pass from `restart:`. -/
def lookup (key : K) : Nat → TreeM K V (Option V)
  | 0 => throw .outOfFuel
  | fuel + 1 => do
    let rootPid := (← get).tree.root
    fixPage rootPid false
    if (← get).tree.root ≠ rootPid then
      unfixPage rootPid false
      lookup key fuel
    else lookupDescend key fuel none rootPid

-- ============================================================ `erase`

/-- The descent of `erase`: the level-one parent fixes its leaf exclusively; the leaf is
written, and released dirty, only when it held the key. -/
def eraseDescend (key : K) : Nat → Option Pid → Pid → TreeM K V Unit
  | 0, _, _ => throw .outOfFuel
  | fuel + 1, parent, current => do
    let node ← getData current
    if node.isLeaf then
      let (node', erased) ← liftAssert (node.leafErase key)
      if erased then setData current node'
      unfixParent parent
      unfixPage current erased
    else
      let pos := node.innerLowerBound key
      check (pos.1 ≤ node.count) "pos.first <= innerNode.count"
      moveDown parent (node.children pos.1) (node.level == 1)
      eraseDescend key fuel (some current) (node.children pos.1)

/-- `erase(key)`: the root is fixed exclusively when it is the leaf. -/
def erase (key : K) : Nat → TreeM K V Unit
  | 0 => throw .outOfFuel
  | fuel + 1 => do
    let rootPid := (← get).tree.root
    fixPage rootPid ((← get).tree.treeHeight == 1)
    if (← get).tree.root ≠ rootPid then
      unfixPage rootPid false
      erase key fuel
    else eraseDescend key fuel none rootPid

-- ============================================================ `insert`

/-- How a pass of `insert` ends: the pair is in, or `goto restart` with the `exclusive` of
the next pass. -/
inductive Pass
  | done
  | restart (exclusive : Bool)
  deriving DecidableEq, Repr

variable (cap : Capacity)

/-- The first half of a split: `create_new_node()`, its page fixed exclusively, and the
node kind's `split` writing the upper half there and keeping the lower half. Returns the new
page and the separator. -/
def splitHalves (split : Node K V → Node K V → Node K V × Node K V × K) (currentPid : Pid)
    (node : Node K V) : TreeM K V (Pid × K) := do
  let rightPid ← createNewNode
  fixPage rightPid true
  let rightNode ← getData rightPid
  let (left, right, splitKey) := split node rightNode
  setData rightPid right
  setData currentPid left
  pure (rightPid, splitKey)

/-- The split both node kinds share: a fresh right page takes the upper half, the
separator goes into the parent or into a new root, and all three frames are released
dirty. -/
def splitNode (split : Node K V → Node K V → Node K V × Node K V × K) (parent : Option Pid)
    (currentPid : Pid) (node : Node K V) : TreeM K V Unit := do
  let (rightPid, splitKey) ← splitHalves split currentPid node
  let parentPid ← match parent with
    | some p => do
      let parentNode ← getData p
      let parentNode' ← liftAssert (parentNode.insertSplit cap splitKey rightPid)
      setData p parentNode'
      pure p
    | none => growRoot (node.level + 1) splitKey currentPid rightPid
  unfixPage rightPid true
  unfixPage currentPid true
  unfixPage parentPid true

/-- The `!has_space()` branch of both node kinds: a shared pass gives up and restarts
exclusively, an exclusive pass splits and restarts shared. -/
def fullNode (split : Node K V → Node K V → Node K V × Node K V × K) (exclusive : Bool)
    (parent : Option Pid) (currentPid : Pid) (node : Node K V) : TreeM K V Pass :=
  if !exclusive then do
    unfixPage currentPid false
    unfixParent parent
    pure (.restart true)
  else do
    splitNode cap split parent currentPid node
    pure (.restart false)

/-- The descent of one pass of `insert`. -/
def insertDescend (key : K) (value : V) (exclusive : Bool) :
    Nat → Option Pid → Pid → TreeM K V Pass
  | 0, _, _ => throw .outOfFuel
  | fuel + 1, parent, currentPid => do
    let node ← getData currentPid
    if !node.isLeaf then
      if !node.innerHasSpace cap then fullNode cap Node.innerSplit exclusive parent currentPid node
      else
        let pos := node.innerLowerBound key
        check (pos.1 ≤ node.count) "pos.first <= innerNode.count"
        moveDown parent (node.children pos.1) (exclusive || node.level == 1)
        insertDescend key value exclusive fuel (some currentPid) (node.children pos.1)
    else
      if !node.leafHasSpace cap then fullNode cap Node.leafSplit exclusive parent currentPid node
      else do
        let node' ← liftAssert (node.leafInsert cap key value)
        setData currentPid node'
        unfixPage currentPid true
        unfixParent parent
        pure .done

/-- One pass of `insert` from `restart:`. -/
def insertPass (key : K) (value : V) (exclusive : Bool) (fuel : Nat) : TreeM K V Pass := do
  let currentPid := (← get).tree.root
  fixPage currentPid (exclusive || (← get).tree.treeHeight == 1)
  if (← get).tree.root ≠ currentPid then
    unfixPage currentPid false
    pure (.restart exclusive)
  else insertDescend cap key value exclusive fuel none currentPid

/-- The `goto restart` loop of `insert`. -/
def insertLoop (key : K) (value : V) : Nat → Bool → TreeM K V Unit
  | 0, _ => throw .outOfFuel
  | fuel + 1, exclusive => do
    match ← insertPass cap key value exclusive fuel with
    | .done => pure ()
    | .restart ex => insertLoop key value fuel ex

/-- `insert(key, value)`: the first pass is shared. -/
def insert (key : K) (value : V) (fuel : Nat) : TreeM K V Unit :=
  insertLoop cap key value fuel false

end BTree

end SimpleDb
