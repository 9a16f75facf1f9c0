import Squint.IR.Program

/-! The plugin's two function passes. `StoreFlushInstru` puts a callback before every store,
`FenceInstru` one at the entry of the first matching function. Each result is `Checked`: an
error stands for a request that LLVM answers with an assertion failure. -/
namespace Squint.IR

inductive Violation where
  | pointerCast
  | pointerType
  | argument
  | insertionPoint
  deriving DecidableEq, Repr

abbrev Checked := Except Violation

inductive PreservedAnalyses where
  | all
  | none
  deriving DecidableEq, Repr

def flushFunctionName : Name := "nova_flush_buffer"
def fenceFunctionName : Name := "PERSISTENT_BARRIER"

def writeFenceTraceWrapper : Name := "write_fence_trace_wrapper"
def writeFlushTraceWrapper : Name := "write_flush_trace_wrapper"
def writeStoreTraceWrapper : Name := "write_store_trace_wrapper"

def instrumenationFunctions : List Name :=
  [writeFenceTraceWrapper, writeFlushTraceWrapper, writeStoreTraceWrapper]

def isWrapper (n : Name) : Bool := instrumenationFunctions.any (n == ·)

def instrumentedFunction (F : Function) : Bool := isWrapper F.name

def getIntPtrTy (M : Module) : Ty := .int (M.dataLayout.pointerSizeInBits 0)

def initializeFenceCallbacks (M : Module) : Module :=
  M.getOrInsertFunction writeFenceTraceWrapper ⟨.void, []⟩

def initializeStoreCallbacks (M : Module) (intptrTy : Ty) : Module :=
  M.getOrInsertFunction writeStoreTraceWrapper ⟨.void, [intptrTy, .int 32]⟩

def initializeFlushCallbacks (M : Module) (intptrTy : Ty) : Module :=
  M.getOrInsertFunction writeFlushTraceWrapper ⟨.void, [intptrTy]⟩

/-- `IRBuilder::CreatePointerCast`: what is inserted, and the value that results. A constant is
folded into a constant expression, so nothing is inserted for it. -/
def createPointerCast (fresh : ℕ) (v : Operand) (destTy : Ty) : Checked (List Inst × Operand) :=
  if v.ty = destTy then .ok ([], v)
  else if v.ty.isPointer then
    match v with
    | .const c => .ok ([], .const (.ptrToInt c destTy))
    | .reg _ _ => .ok ([.ptrToInt fresh v destTy], .reg fresh destTy)
  else .error .pointerCast

def toInt32 (n : ℕ) : ℤ := Int.bmod n (2 ^ 32)

/-- What `instrumentFunction` inserts in front of a store through `pointer`. -/
def storeCallback (dl : DataLayout) (fresh : ℕ) (pointer : Operand) : Checked (List Inst) := do
  let (cast, addrLong) ← createPointerCast fresh pointer (.int (dl.pointerSizeInBits 0))
  match pointer.ty.pointee? with
  | none => .error .pointerType
  | some elementTy =>
    let storeSize := toInt32 (dl.typeStoreSize elementTy)
    .ok (cast ++ [.call none (.fn writeStoreTraceWrapper) [addrLong, .const (.int 32 storeSize)]])

/-- The position of the loops over blocks and instructions, apart from the list walked. -/
structure Cursor where
  fresh : ℕ
  changed : Bool

/-- The loop body of `instrumentFunction`. The list iterator already stands on the store when
its callback goes in front of it, so what is inserted is never visited. -/
def instrumentInsts (dl : DataLayout) : Cursor → List Inst → Checked (List Inst × Cursor)
  | c, [] => .ok ([], c)
  | c, .store value pointer :: rest => do
    let new ← storeCallback dl c.fresh pointer
    let (rest', c') ← instrumentInsts dl ⟨c.fresh + new.length, true⟩ rest
    .ok (new ++ .store value pointer :: rest', c')
  | c, inst :: rest => do
    let (rest', c') ← instrumentInsts dl c rest
    .ok (inst :: rest', c')

def instrumentBlocks (dl : DataLayout) : Cursor → List Block → Checked (List Block × Cursor)
  | c, [] => .ok ([], c)
  | c, b :: rest => do
    let (insts, c₁) ← instrumentInsts dl c b.insts
    let (rest', c₂) ← instrumentBlocks dl c₁ rest
    .ok ({ b with insts := insts } :: rest', c₂)

/-- The new body of `F`, and whether a store was found in it. -/
def instrumentBody (dl : DataLayout) (F : Function) : Checked (Function × Bool) := do
  let (blocks, c) ← instrumentBlocks dl ⟨F.freshReg, false⟩ F.blocks
  .ok ({ F with blocks := blocks }, c.changed)

/-- The declarations `instrumentFunction` asks for before it looks at the body. -/
def storeFlushCallbacks (M : Module) : Module :=
  initializeFlushCallbacks (initializeStoreCallbacks M (getIntPtrTy M)) (getIntPtrTy M)

def instrumentFunction (M : Module) (F : Function) : Checked (Module × Bool) :=
  if instrumentedFunction F then .ok (M, false)
  else do
    let (F', changed) ← instrumentBody M.dataLayout F
    .ok ((storeFlushCallbacks M).update F', changed)

/-- `StoreFlushInstru::run`. -/
def storeFlushInstru (M : Module) (F : Function) : Checked (Module × PreservedAnalyses) := do
  let (M', changed) ← instrumentFunction M F
  if !changed then .ok (M', .all) else .ok (M', .all)

/-- `BasicBlock::getFirstInsertionPt`, as the instructions before it and those from it on. -/
def getFirstInsertionPt (insts : List Inst) : Option (List Inst × List Inst) :=
  let phis := insts.takeWhile Inst.isPhi
  match insts.dropWhile Inst.isPhi with
  | [] => none
  | i :: rest =>
    if i.isEHPad then if rest = [] then none else some (phis ++ [i], rest)
    else some (phis, i :: rest)

def insertAtEntry (F : Function) (new : List Inst) : Checked Function :=
  match F.blocks with
  | [] => .error .insertionPoint
  | entry :: blocks =>
    match getFirstInsertionPt entry.insts with
    | none => .error .insertionPoint
    | some (before, after) =>
      .ok { F with blocks := { entry with insts := before ++ new ++ after } :: blocks }

def fenceCallback : List Inst := [.call none (.fn writeFenceTraceWrapper) []]

/-- The flush callback of `F`: its first argument as an integer, in a cast if need be. -/
def flushCallback (dl : DataLayout) (F : Function) : Checked (List Inst) :=
  match F.params with
  | [] => .error .argument
  | (r, ty) :: _ => do
    let (cast, addrLong) ←
      createPointerCast F.freshReg (.reg r ty) (.int (dl.pointerSizeInBits 0))
    .ok (cast ++ [.call none (.fn writeFlushTraceWrapper) [addrLong]])

/-- The two process-wide flags. -/
structure Once where
  fence : Bool
  flush : Bool
  deriving DecidableEq, Repr

/-- The declarations `FenceInstru::run` asks for, whatever the function. -/
def fenceFlushCallbacks (M : Module) : Module :=
  initializeFlushCallbacks (initializeFenceCallbacks M) (getIntPtrTy M)

/-- `FenceInstru::run`. -/
def fenceInstru (once : Once) (M : Module) (F : Function) :
    Checked (Once × Module × PreservedAnalyses) :=
  let M₁ := fenceFlushCallbacks M
  if Contains F.name fenceFunctionName ∧ once.fence = false then do
    let F' ← insertAtEntry F fenceCallback
    .ok ({ once with fence := true }, M₁.update F', .all)
  else if Contains F.name flushFunctionName ∧ once.flush = false then do
    let new ← flushCallback M.dataLayout F
    let F' ← insertAtEntry F new
    .ok ({ once with flush := true }, M₁.update F', .all)
  else .ok (once, M₁, .all)

/-- One run of a pass on one function, by its name. -/
inductive PassRun where
  | storeFlush (f : Name)
  | fence (f : Name)
  deriving DecidableEq, Repr

/-- The pass manager visits defined functions only. -/
def runPass (s : Once × Module) : PassRun → Checked (Once × Module)
  | .storeFlush f =>
    match s.2.lookup f with
    | none => .ok s
    | some F => do
      let (M', _) ← storeFlushInstru s.2 F
      .ok (s.1, M')
  | .fence f =>
    match s.2.lookup f with
    | none => .ok s
    | some F => do
      let (once, M', _) ← fenceInstru s.1 s.2 F
      .ok (once, M')

def runPasses : Once × Module → List PassRun → Checked (Once × Module)
  | s, [] => .ok s
  | s, p :: ps => do
    let t ← runPass s p
    runPasses t ps

end Squint.IR
