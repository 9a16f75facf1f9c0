import Mathlib.Algebra.Order.Ring.Int
import Mathlib.Data.List.Infix
import Mathlib.Data.List.Nodup
import Mathlib.Tactic.Common

/-! The part of LLVM 11's IR that the passes read and write: typed operands, instructions in
flat basic blocks, functions and modules. Pointers are typed, as in that version. -/
namespace Squint.IR

abbrev Name := String
abbrev Label := ℕ

/-- Struct, vector and function types appear by name only: the passes ask a type for its
pointee and the data layout for its store size, nothing else. -/
inductive Ty where
  | void
  | int (bits : ℕ)
  | float (bits : ℕ)
  | ptr (pointee : Ty) (addrSpace : ℕ)
  | array (length : ℕ) (element : Ty)
  | named (name : Name)
  deriving DecidableEq, Repr

namespace Ty

def isPointer : Ty → Bool
  | ptr _ _ => true
  | _ => false

/-- `PointerType::getPointerElementType`; `none` where `cast<PointerType>` would assert. -/
def pointee? : Ty → Option Ty
  | ptr t _ => some t
  | _ => none

def addrSpace : Ty → ℕ
  | ptr _ a => a
  | _ => 0

def intBits : Ty → ℕ
  | int n => n
  | _ => 0

end Ty

inductive Const where
  | int (bits : ℕ) (value : ℤ)
  | global (name : Name) (ty : Ty)
  | ptrToInt (c : Const) (ty : Ty)
  | literal (id : ℕ) (ty : Ty)
  deriving DecidableEq, Repr

def Const.ty : Const → Ty
  | int bits _ => .int bits
  | global _ ty => ty
  | ptrToInt _ ty => ty
  | literal _ ty => ty

inductive Operand where
  | reg (r : ℕ) (ty : Ty)
  | const (c : Const)
  deriving DecidableEq, Repr

namespace Operand

def ty : Operand → Ty
  | reg _ ty => ty
  | const c => c.ty

def regs : Operand → List ℕ
  | reg r _ => [r]
  | const _ => []

end Operand

/-- Instructions other than phis, stores, pointer casts, calls and terminators. -/
inductive Opcode where
  | load (ty : Ty)
  | alloca (ty : Ty)
  | fence
  | atomicRMW (operation : Name) (ty : Ty)
  | cmpXchg (ty : Ty)
  | landingPad
  | other (name : Name)
  deriving DecidableEq, Repr

inductive MemIntrinsic where
  | memcpy
  | memmove
  | memset
  deriving DecidableEq, Repr

/-- The called operand. `value` is any operand that is not itself a function; `stripped` is the
name of that value after `stripPointerCasts`, which is empty for an unnamed one. -/
inductive Callee where
  | fn (name : Name)
  | value (v : Operand) (stripped : Name)
  | asm (id : ℕ)
  | mem (kind : MemIntrinsic)
  deriving DecidableEq, Repr

def Callee.regs : Callee → List ℕ
  | value v _ => v.regs
  | _ => []

inductive Terminator where
  | ret (v : Option Operand)
  | br (target : Label)
  | condBr (cond : Operand) (ifTrue ifFalse : Label)
  | switch (v : Operand) (cases : List (ℕ × Label)) (otherwise : Label)
  | invoke (dst : Option ℕ) (callee : Callee) (args : List Operand) (normal unwind : Label)
  | resume (v : Operand)
  | unreachable
  deriving DecidableEq, Repr

namespace Terminator

def successors : Terminator → List Label
  | br l => [l]
  | condBr _ l₁ l₂ => [l₁, l₂]
  | switch _ cases l => l :: cases.map (·.2)
  | invoke _ _ _ l₁ l₂ => [l₁, l₂]
  | _ => []

def regs : Terminator → List ℕ
  | ret v => v.elim [] Operand.regs
  | condBr c _ _ => c.regs
  | switch v _ _ => v.regs
  | invoke dst callee args _ _ => dst.toList ++ callee.regs ++ args.flatMap Operand.regs
  | resume v => v.regs
  | _ => []

end Terminator

inductive Inst where
  | phi (dst : ℕ) (ty : Ty) (incoming : List (Label × Operand))
  | store (value pointer : Operand)
  | ptrToInt (dst : ℕ) (v : Operand) (ty : Ty)
  | op (dst : Option ℕ) (code : Opcode) (args : List Operand)
  | call (dst : Option ℕ) (callee : Callee) (args : List Operand)
  | term (t : Terminator)
  deriving DecidableEq, Repr

namespace Inst

def isPhi : Inst → Bool
  | phi .. => true
  | _ => false

def isStore : Inst → Bool
  | store .. => true
  | _ => false

theorem exists_of_isStore {i : Inst} (h : i.isStore = true) : ∃ v p, i = .store v p := by
  cases i <;> simp_all [isStore]

def isTerm : Inst → Bool
  | term _ => true
  | _ => false

/-- `Instruction::isEHPad`. -/
def isEHPad : Inst → Bool
  | op _ .landingPad _ => true
  | _ => false

def successors : Inst → List Label
  | term t => t.successors
  | _ => []

/-- The function that a call or an invoke names directly. -/
def directCallee : Inst → Option Name
  | call _ (.fn n) _ => some n
  | term (.invoke _ (.fn n) _ _ _) => some n
  | _ => none

def regs : Inst → List ℕ
  | phi dst _ incoming => dst :: incoming.flatMap (·.2.regs)
  | store value pointer => value.regs ++ pointer.regs
  | ptrToInt dst v _ => dst :: v.regs
  | op dst _ args => dst.toList ++ args.flatMap Operand.regs
  | call dst callee args => dst.toList ++ callee.regs ++ args.flatMap Operand.regs
  | term t => t.regs

end Inst

structure Block where
  label : Label
  insts : List Inst
  deriving DecidableEq, Repr

structure FnTy where
  ret : Ty
  params : List Ty
  deriving DecidableEq, Repr

/-- A defined function. Its entry block is the first one. -/
structure Function where
  name : Name
  params : List (ℕ × Ty)
  nounwind : Bool
  blocks : List Block
  deriving DecidableEq, Repr

namespace Function

def regs (F : Function) : List ℕ :=
  F.params.map (·.1) ++ F.blocks.flatMap fun b => b.insts.flatMap Inst.regs

/-- A new instruction is a new value: no register of the function has this number. -/
def freshReg (F : Function) : ℕ := F.regs.foldr max 0 + 1

theorem lt_freshReg {F : Function} {r : ℕ} (h : r ∈ F.regs) : r < F.freshReg := by
  unfold freshReg
  generalize F.regs = l at h
  induction l with
  | nil => simp at h
  | cons a l ih =>
    rcases List.mem_cons.mp h with rfl | h
    · simp only [List.foldr_cons]; omega
    · have := ih h
      simp only [List.foldr_cons]; omega

theorem mem_regs_of_inst {F : Function} {b : Block} {i : Inst} {r : ℕ}
    (hb : b ∈ F.blocks) (hi : i ∈ b.insts) (hr : r ∈ i.regs) : r ∈ F.regs :=
  List.mem_append_right _ (List.mem_flatMap.mpr ⟨b, hb, List.mem_flatMap.mpr ⟨i, hi, hr⟩⟩)

def Has (F : Function) (P : Inst → Prop) : Prop := ∃ b ∈ F.blocks, ∃ i ∈ b.insts, P i

def HasStore (F : Function) : Prop := F.Has fun i => i.isStore = true

def block? (F : Function) (l : Label) : Option Block := F.blocks.find? (·.label == l)

end Function

/-- What the passes and the execution ask of LLVM's `DataLayout`. -/
structure DataLayout where
  pointerSizeInBits : ℕ → ℕ
  typeStoreSize : Ty → ℕ

structure Module where
  dataLayout : DataLayout
  decls : List (Name × FnTy)
  defs : List Function

namespace Module

def lookup (M : Module) (n : Name) : Option Function := M.defs.find? (·.name == n)

def update (M : Module) (F : Function) : Module :=
  { M with defs := M.defs.map fun G => if G.name = F.name then F else G }

/-- `Module::getOrInsertFunction`: a function of that name is reused whatever its type. -/
def getOrInsertFunction (M : Module) (n : Name) (ty : FnTy) : Module :=
  if (M.lookup n).isSome ∨ n ∈ M.decls.map (·.1) then M
  else { M with decls := M.decls ++ [(n, ty)] }

end Module

/-- `StringRef::contains`. -/
def Contains (s pattern : Name) : Prop := pattern.toList <:+: s.toList

instance (s pattern : Name) : Decidable (Contains s pattern) :=
  inferInstanceAs (Decidable (_ <:+: _))

/-- Phis, then other instructions, then exactly one terminator. -/
def Block.Shaped (b : Block) : Prop :=
  ∃ phis body t, b.insts = phis ++ body ++ [.term t] ∧ (∀ i ∈ phis, i.isPhi = true) ∧
    ∀ i ∈ body, i.isPhi = false ∧ i.isTerm = false

/-- The verifier's rules that the results below rest on. -/
structure Function.WellFormed (F : Function) : Prop where
  params_nodup : (F.params.map (·.1)).Nodup
  blocks_ne_nil : F.blocks ≠ []
  labels_nodup : (F.blocks.map (·.label)).Nodup
  shaped : ∀ b ∈ F.blocks, b.Shaped
  entry_head : ∀ b ∈ F.blocks.head?, ∀ i ∈ b.insts, i.isPhi = false ∧ i.isEHPad = false
  entry_not_target : ∀ e ∈ F.blocks.head?, ∀ b ∈ F.blocks, ∀ i ∈ b.insts, e.label ∉ i.successors
  store_typed : ∀ b ∈ F.blocks, ∀ v p, Inst.store v p ∈ b.insts → p.ty.pointee? = some v.ty

structure Module.WellFormed (M : Module) : Prop where
  names_nodup : (M.defs.map (·.name)).Nodup
  functions : ∀ F ∈ M.defs, F.WellFormed

/-! ## A driver in miniature -/

namespace Driver

def storeSize : Ty → ℕ
  | .int bits => (bits + 7) / 8
  | .float bits => bits / 8
  | .array n t => n * storeSize t
  | .ptr _ _ => 8
  | _ => 0

def barrier : Function where
  name := "PERSISTENT_BARRIER"
  params := []
  nounwind := true
  blocks := [⟨0, [.op none .fence [], .term (.ret none)]⟩]

def flushBuffer : Function where
  name := "nova_flush_buffer"
  params := [(0, .ptr (.int 8) 0), (1, .int 32)]
  nounwind := true
  blocks := [⟨0, [.call none (.asm 0) [.reg 0 (.ptr (.int 8) 0)], .term (.ret none)]⟩]

/-- Stores 7 through its argument, flushes the line it wrote and fences. -/
def writeBlock : Function where
  name := "nova_write_block"
  params := [(0, .ptr (.int 64) 0)]
  nounwind := false
  blocks := [⟨0, [
    .store (.const (.int 64 7)) (.reg 0 (.ptr (.int 64) 0)),
    .call none (.fn "nova_flush_buffer") [.reg 0 (.ptr (.int 64) 0), .const (.int 32 8)],
    .call none (.fn "PERSISTENT_BARRIER") [],
    .term (.ret none)]⟩]

def program : Module where
  dataLayout := ⟨fun _ => 64, storeSize⟩
  decls := []
  defs := [barrier, flushBuffer, writeBlock]

theorem shaped_of_body {l : Label} {t : Terminator} (body : List Inst)
    (h : ∀ i ∈ body, i.isPhi = false ∧ i.isTerm = false) :
    Block.Shaped ⟨l, body ++ [.term t]⟩ :=
  ⟨[], body, t, by simp, by simp, h⟩

theorem wellFormed : program.WellFormed := by
  refine ⟨by decide, ?_⟩
  simp only [program, List.mem_cons, List.not_mem_nil, or_false]
  rintro F (rfl | rfl | rfl)
  all_goals refine ⟨by decide, by decide, by decide, ?_, by decide, by decide, ?_⟩
  all_goals simp only [barrier, flushBuffer, writeBlock, List.mem_singleton, forall_eq]
  · exact shaped_of_body [_] (by decide)
  · simp
  · exact shaped_of_body [_] (by decide)
  · simp
  · exact shaped_of_body [_, _, _] (by decide)
  · simp [Operand.ty, Const.ty, Ty.pointee?]

def calling (name : Name) (params : List (ℕ × Ty)) (callee : Callee) (args : List Operand) :
    Function where
  name := name
  params := params
  nounwind := true
  blocks := [⟨0, [.call none callee args, .term (.ret none)]⟩]

def callingModule (name : Name) (params : List (ℕ × Ty)) (callee : Callee) (args : List Operand) :
    Module :=
  ⟨program.dataLayout, [], [calling name params callee args]⟩

theorem callingModule_wellFormed {name : Name} {params : List (ℕ × Ty)} {callee : Callee}
    {args : List Operand} (hparams : (params.map (·.1)).Nodup) :
    (callingModule name params callee args).WellFormed := by
  refine ⟨by simp [callingModule], ?_⟩
  simp only [callingModule, List.mem_singleton, forall_eq]
  refine ⟨hparams, by simp [calling], by simp [calling], ?_, ?_, ?_, ?_⟩
  · simp only [calling, List.mem_singleton, forall_eq]
    exact shaped_of_body [_] (by simp [Inst.isPhi, Inst.isTerm])
  · simp [calling, Inst.isPhi, Inst.isEHPad]
  · simp [calling, Inst.successors, Terminator.successors]
  · simp [calling]

end Driver

end Squint.IR
