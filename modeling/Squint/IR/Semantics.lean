import Mathlib.Logic.Function.Basic
import Squint.IR.Passes
import Squint.Lib.Trace

/-! Small-step execution of a module. The machine under the IR is a parameter: memory, the
other opcodes, inline assembly and external functions act on a world of any type. Values are
bit patterns. Every step reports what it did as a list of log entries. -/
namespace Squint.IR

/-- Result of an instruction that may read and write the world. -/
structure Effect (W : Type) where
  value : ℕ
  writes : List (ℕ × ℕ)
  world : W

inductive Outcome where
  | returned (v : Option ℕ)
  | unwound
  deriving DecidableEq, Repr

structure Env (W : Type) where
  globalAddr : Name → ℕ
  literal : ℕ → ℕ
  functionAt : ℕ → Option Name
  storeMem : ℕ → Ty → ℕ → W → W
  exec : Opcode → List ℕ → W → Effect W
  asm : ℕ → List ℕ → W → Effect W
  mem : MemIntrinsic → List ℕ → W → W
  external : Name → List ℕ → W → Outcome × W

variable {W : Type}

namespace Const

def eval (E : Env W) (dl : DataLayout) : Const → ℕ
  | int bits v => (v % 2 ^ bits).toNat
  | global n _ => E.globalAddr n
  | ptrToInt c ty =>
    c.eval E dl % 2 ^ dl.pointerSizeInBits c.ty.addrSpace % 2 ^ ty.intBits
  | literal id _ => E.literal id

end Const

namespace Operand

def eval (E : Env W) (dl : DataLayout) (regs : ℕ → ℕ) : Operand → ℕ
  | reg r _ => regs r
  | const c => c.eval E dl

/-- The address a pointer operand holds, in the width of its address space. -/
def addr (E : Env W) (dl : DataLayout) (regs : ℕ → ℕ) (v : Operand) : ℕ :=
  v.eval E dl regs % 2 ^ dl.pointerSizeInBits v.ty.addrSpace

end Operand

/-- What a suspended frame is waiting for. -/
inductive Wait where
  | running
  | call (dst : Option ℕ)
  | invoke (dst : Option ℕ) (normal unwind : Label)
  deriving DecidableEq, Repr

structure Frame where
  fn : Function
  label : Label
  rest : List Inst
  regs : ℕ → ℕ
  wait : Wait

inductive WriteKind where
  | store
  | op (code : Opcode)
  | asm (id : ℕ)
  | mem (kind : MemIntrinsic)
  deriving DecidableEq, Repr

inductive Event where
  | call (callee : Name) (args : List ℕ)
  | enter (args : List ℕ)
  | block (l : Label)
  | write (kind : WriteKind) (addr size : ℕ) (data : List ℕ)
  | ret (v : Option ℕ)
  deriving DecidableEq, Repr

/-- One event, with the function it happens in, the height of the call stack there, and how many
trace wrappers called from other functions are running. -/
structure Entry where
  fn : Name
  depth : ℕ
  tracing : ℕ
  event : Event
  deriving DecidableEq, Repr

def tracing : List Frame → ℕ
  | f :: g :: fs => (isWrapper f.fn.name && !isWrapper g.fn.name).toNat + tracing (g :: fs)
  | _ => 0

def logAt (stack : List Frame) (e : Event) : Entry where
  fn := (stack.head?.map (·.fn.name)).getD ""
  depth := stack.length
  tracing := tracing stack
  event := e

structure State (W : Type) where
  stack : List Frame
  world : W
  result : Option ℕ

def assign (regs : ℕ → ℕ) (vals : List (ℕ × ℕ)) : ℕ → ℕ :=
  vals.foldl (fun ρ p => Function.update ρ p.1 p.2) regs

def assignDst (regs : ℕ → ℕ) (dst v : Option ℕ) : ℕ → ℕ :=
  assign regs (dst.toList.map (·, v.getD 0))

def splitPhis : List Inst → List (ℕ × List (Label × Operand)) × List Inst
  | .phi d _ incoming :: rest => ((d, incoming) :: (splitPhis rest).1, (splitPhis rest).2)
  | l => ([], l)

section
variable (E : Env W) (M : Module)

/-- The phis of a block are evaluated together, on the registers of the predecessor. -/
def phiValues (regs : ℕ → ℕ) (pred : Label) :
    List (ℕ × List (Label × Operand)) → Option (List (ℕ × ℕ))
  | [] => some []
  | (d, incoming) :: ps =>
    match incoming.find? (·.1 == pred), phiValues regs pred ps with
    | some p, some vals => some ((d, p.2.eval E M.dataLayout regs) :: vals)
    | _, _ => none

def Frame.goto (f : Frame) (l : Label) : Option Frame :=
  match f.fn.block? l with
  | none => none
  | some b =>
    (phiValues E M f.regs f.label (splitPhis b.insts).1).map fun vals =>
      { f with
        label := l
        rest := (splitPhis b.insts).2
        regs := assign f.regs vals
        wait := .running }

def Function.enter (F : Function) (args : List ℕ) : Frame where
  fn := F
  label := (F.blocks.head?.map (·.label)).getD 0
  rest := (F.blocks.head?.map (·.insts)).getD []
  regs := assign (fun _ => 0) ((F.params.map (·.1)).zip args)
  wait := .running

/-- Control returns with `v` to the topmost of the suspended frames. -/
def resumeWith (v : Option ℕ) : List Frame → Option (List Frame × List Entry)
  | [] => some ([], [])
  | f :: fs =>
    match f.wait with
    | .running => none
    | .call dst => some ({ f with regs := assignDst f.regs dst v, wait := .running } :: fs, [])
    | .invoke dst normal _ =>
      (Frame.goto E M { f with regs := assignDst f.regs dst v } normal).map fun f' =>
        (f' :: fs, [logAt (f' :: fs) (.block normal)])

/-- An exception leaves frames until an invoke catches it; it may not leave a `nounwind` one. -/
def unwind : List Frame → Option (List Frame × List Entry)
  | [] => none
  | f :: fs =>
    match f.wait with
    | .running => none
    | .call _ => if f.fn.nounwind then none else unwind fs
    | .invoke _ _ target =>
      (f.goto E M target).map fun f' => (f' :: fs, [logAt (f' :: fs) (.block target)])

/-- The frames left by a return or an exception go on in the world `w`, after `L` was reported. -/
def proceed (w : W) (L : List Entry) (r : Option (List Frame × List Entry)) :
    Option (State W × List Entry) :=
  r.map fun p => (⟨p.1, w, none⟩, L ++ p.2)

/-- The suspended frames `stack` call the function named `n`. -/
def callFunction (stack : List Frame) (w : W) (n : Name) (args : List ℕ) :
    Option (State W × List Entry) :=
  match M.lookup n with
  | some F =>
    some (⟨F.enter args :: stack, w, none⟩,
      [logAt stack (.call n args), logAt (F.enter args :: stack) (.enter args)])
  | none =>
    match E.external n args w with
    | (.returned v, w') => proceed w' [logAt stack (.call n args)] (resumeWith E M v stack)
    | (.unwound, w') => proceed w' [logAt stack (.call n args)] (unwind E M stack)

def logWrites (stack : List Frame) (kind : WriteKind) (data : List ℕ)
    (writes : List (ℕ × ℕ)) : List Entry :=
  writes.map fun p => logAt stack (.write kind p.1 p.2 data)

/-- The bytes `memcpy`, `memmove` and `memset` write: the third argument is the length. -/
def memWrites : List ℕ → List (ℕ × ℕ)
  | dst :: _ :: len :: _ => [(dst, len)]
  | _ => []

def performCall (stack : List Frame) (regs : ℕ → ℕ) (w : W) (callee : Callee) (args : List ℕ) :
    Option (State W × List Entry) :=
  match callee with
  | .fn n => callFunction E M stack w n args
  | .value v _ =>
    match E.functionAt (v.eval E M.dataLayout regs) with
    | some n => callFunction E M stack w n args
    | none => none
  | .asm id =>
    let r := E.asm id args w
    proceed r.world (logWrites stack (.asm id) args r.writes)
      (resumeWith E M (some r.value) stack)
  | .mem kind =>
    proceed (E.mem kind args w) (logWrites stack (.mem kind) args (memWrites args))
      (resumeWith E M none stack)

def switchTarget (v : ℕ) (cases : List (ℕ × Label)) (otherwise : Label) : Label :=
  ((cases.find? (·.1 == v)).map (·.2)).getD otherwise

def jump (f : Frame) (fs : List Frame) (w : W) (l : Label) : Option (State W × List Entry) :=
  proceed w [] ((f.goto E M l).map fun f' => (f' :: fs, [logAt (f' :: fs) (.block l)]))

def stepTerm (f : Frame) (fs : List Frame) (w : W) : Terminator → Option (State W × List Entry)
  | .ret v =>
    let r := v.map (·.eval E M.dataLayout f.regs)
    (resumeWith E M r fs).map fun p =>
      (⟨p.1, w, if fs = [] then r else none⟩, logAt (f :: fs) (.ret r) :: p.2)
  | .br l => jump E M f fs w l
  | .condBr c l₁ l₂ =>
    jump E M f fs w (if c.eval E M.dataLayout f.regs % 2 = 1 then l₁ else l₂)
  | .switch v cases otherwise =>
    jump E M f fs w (switchTarget (v.eval E M.dataLayout f.regs) cases otherwise)
  | .invoke dst callee args normal target =>
    performCall E M ({ f with wait := .invoke dst normal target } :: fs) f.regs w callee
      (args.map (·.eval E M.dataLayout f.regs))
  | .resume _ => if f.fn.nounwind then none else proceed w [] (unwind E M fs)
  | .unreachable => none

/-- Execute `inst` in the frame `f`, whose remaining instructions are those after `inst`. -/
def stepInst (f : Frame) (fs : List Frame) (w : W) : Inst → Option (State W × List Entry)
  | .phi .. => none
  | .store value pointer =>
    let a := pointer.addr E M.dataLayout f.regs
    let v := value.eval E M.dataLayout f.regs
    some (⟨f :: fs, E.storeMem a value.ty v w, none⟩,
      [logAt (f :: fs) (.write .store a (M.dataLayout.typeStoreSize value.ty) [v])])
  | .ptrToInt dst v ty =>
    let a := v.addr E M.dataLayout f.regs % 2 ^ ty.intBits
    some (⟨{ f with regs := Function.update f.regs dst a } :: fs, w, none⟩, [])
  | .op dst code args =>
    let vals := args.map (·.eval E M.dataLayout f.regs)
    let r := E.exec code vals w
    some (⟨{ f with regs := assignDst f.regs dst (some r.value) } :: fs, r.world, none⟩,
      logWrites (f :: fs) (.op code) vals r.writes)
  | .call dst callee args =>
    performCall E M ({ f with wait := .call dst } :: fs) f.regs w callee
      (args.map (·.eval E M.dataLayout f.regs))
  | .term t => stepTerm E M f fs w t

def step (s : State W) : Option (State W × List Entry) :=
  match s.stack with
  | [] => none
  | f :: fs =>
    match f.rest with
    | [] => none
    | i :: rest => stepInst E M { f with rest := rest } fs s.world i

def start (F : Function) (args : List ℕ) (w : W) : State W := ⟨[F.enter args], w, none⟩

/-- The first `n` steps of the execution of `F`, its entry included. -/
def execute (F : Function) (args : List ℕ) (w : W) (n : ℕ) : Option (State W × List Entry) :=
  (Lib.runFor (step E M) n (start F args w)).map fun p =>
    (p.1, logAt [F.enter args] (.enter args) :: p.2)

/-- Run the passes over `M`, both flags unset, and then the first `n` steps of `f`. -/
def instrumentedTrace (ps : List PassRun) (f : Name) (args : List ℕ) (w : W) (n : ℕ) :
    Option (List Entry) :=
  match runPasses (⟨false, false⟩, M) ps with
  | .error _ => none
  | .ok (_, M') => (M'.lookup f).bind fun F => (execute E M' F args w n).map (·.2)

variable {E M}

theorem execute_of_instrumentedTrace {ps : List PassRun} {f : Name} {args : List ℕ} {w : W} {n : ℕ}
    {L : List Entry} {once : Once} {M' : Module} (h : instrumentedTrace E M ps f args w n = some L)
    (hrun : runPasses (⟨false, false⟩, M) ps = .ok (once, M')) :
    ∃ F s, M'.lookup f = some F ∧ execute E M' F args w n = some (s, L) := by
  simp only [instrumentedTrace, hrun] at h
  obtain ⟨F, hF, h⟩ := Option.bind_eq_some_iff.mp h
  obtain ⟨⟨s, L'⟩, hexec, rfl⟩ := Option.map_eq_some_iff.mp h
  exact ⟨F, s, hF, hexec⟩

end

/-- A machine whose memory is the list of what was stored, and whose external functions do
nothing. -/
def Driver.machine : Env (List (ℕ × ℕ)) where
  globalAddr _ := 0
  literal id := id
  functionAt _ := none
  storeMem a _ v w := (a, v) :: w
  exec _ _ w := ⟨0, [], w⟩
  asm _ _ w := ⟨0, [], w⟩
  mem _ _ w := w
  external _ _ w := (.returned none, w)

end Squint.IR
