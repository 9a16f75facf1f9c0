import Squint.IR.Control

/-! What an instruction asks for once its operands are read. Execution is this reading, which only
looks at registers and the world, followed by one of a few things done to the frames. -/
namespace Squint.IR

variable {W : Type}

/-- `back` is a call that is answered at once. -/
inductive Action (W : Type) where
  | stay (vals : List (ℕ × ℕ)) (world : W) (events : List Event)
  | call (wait : Wait) (callee : Name) (args : List ℕ)
  | back (wait : Wait) (value : Option ℕ) (world : W) (events : List Event)
  | jump (l : Label)
  | ret (v : Option ℕ)
  | raise
  | stuck

def writeEvents (kind : WriteKind) (data : List ℕ) (writes : List (ℕ × ℕ)) : List Event :=
  writes.map fun p => .write kind p.1 p.2 data

section
variable (E : Env W) (dl : DataLayout) (ρ : ℕ → ℕ) (w : W)

def Callee.action (wait : Wait) (args : List ℕ) : Callee → Action W
  | .fn n => .call wait n args
  | .value v _ =>
    match E.functionAt (v.eval E dl ρ) with
    | some n => .call wait n args
    | none => .stuck
  | .asm id =>
    let r := E.asm id args w
    .back wait (some r.value) r.world (writeEvents (.asm id) args r.writes)
  | .mem kind => .back wait none (E.mem kind args w) (writeEvents (.mem kind) args (memWrites args))

def Terminator.action : Terminator → Action W
  | .ret v => .ret (v.map (·.eval E dl ρ))
  | .br l => .jump l
  | .condBr c l₁ l₂ => .jump (if c.eval E dl ρ % 2 = 1 then l₁ else l₂)
  | .switch v cases otherwise => .jump (switchTarget (v.eval E dl ρ) cases otherwise)
  | .invoke dst callee args normal target =>
    callee.action E dl ρ w (.invoke dst normal target) (args.map (·.eval E dl ρ))
  | .resume _ => .raise
  | .unreachable => .stuck

def Inst.action : Inst → Action W
  | .phi .. => .stuck
  | .store value pointer =>
    let a := pointer.addr E dl ρ
    let v := value.eval E dl ρ
    .stay [] (E.storeMem a value.ty v w) [.write .store a (dl.typeStoreSize value.ty) [v]]
  | .ptrToInt dst v ty => .stay [(dst, v.addr E dl ρ % 2 ^ ty.intBits)] w []
  | .op dst code args =>
    let vals := args.map (·.eval E dl ρ)
    let r := E.exec code vals w
    .stay (dst.toList.map (·, r.value)) r.world (writeEvents (.op code) vals r.writes)
  | .call dst callee args => callee.action E dl ρ w (.call dst) (args.map (·.eval E dl ρ))
  | .term t => t.action E dl ρ w

end

namespace Action

/-- Do in the frame `f`, over the frames `fs`, what is asked for. -/
def perform (E : Env W) (M : Module) (f : Frame) (fs : List Frame) (w : W) :
    Action W → Option (State W × List Entry)
  | stay vals u events =>
    some (⟨{ f with regs := assign f.regs vals } :: fs, u, none⟩, events.map (logAt (f :: fs)))
  | call wait n args => callFunction E M ({ f with wait := wait } :: fs) w n args
  | back wait v u events =>
    proceed u (events.map (logAt ({ f with wait := wait } :: fs)))
      (resumeWith E M v ({ f with wait := wait } :: fs))
  | jump l => IR.jump E M f fs w l
  | ret v => (resumeWith E M v fs).map fun p =>
      (⟨p.1, w, if fs = [] then v else none⟩, logAt (f :: fs) (.ret v) :: p.2)
  | raise => if f.fn.nounwind then none else proceed w [] (unwind E M fs)
  | stuck => none

def wait? : Action W → Option Wait
  | call wait _ _ => some wait
  | back wait _ _ _ => some wait
  | _ => none

def targets : Action W → List Label
  | call wait _ _ => wait.targets
  | back wait _ _ _ => wait.targets
  | jump l => [l]
  | _ => []

end Action

variable {E : Env W} {M : Module} {f : Frame} {fs : List Frame} {w : W}

theorem writeEvents_logAt (K : List Frame) (kind : WriteKind) (data : List ℕ)
    (writes : List (ℕ × ℕ)) :
    (writeEvents kind data writes).map (logAt K) = logWrites K kind data writes := by
  simp [writeEvents, logWrites]

theorem performCall_eq (wait : Wait) (callee : Callee) (args : List ℕ) :
    performCall E M ({ f with wait := wait } :: fs) f.regs w callee args =
      (callee.action E M.dataLayout f.regs w wait args).perform E M f fs w := by
  cases callee with
  | fn n => rfl
  | value v stripped =>
    simp only [performCall, Callee.action]
    cases E.functionAt (v.eval E M.dataLayout f.regs) <;> rfl
  | asm id => simp [performCall, Callee.action, Action.perform, writeEvents_logAt]
  | mem kind => simp [performCall, Callee.action, Action.perform, writeEvents_logAt]

/-- Executing an instruction is reading its operands and doing what it asks for. -/
theorem stepInst_eq (i : Inst) : stepInst E M f fs w i =
    (i.action E M.dataLayout f.regs w).perform E M f fs w := by
  cases i with
  | phi => rfl
  | store => rfl
  | ptrToInt => rfl
  | op => simp [stepInst, Inst.action, Action.perform, assignDst, writeEvents_logAt]
  | call dst callee args => exact performCall_eq (.call dst) callee _
  | term t =>
    cases t with
    | invoke dst callee args normal target =>
      exact performCall_eq (.invoke dst normal target) callee _
    | _ => rfl

theorem Callee.action_wait {dl : DataLayout} {ρ : ℕ → ℕ} {wait wait' : Wait} {args : List ℕ}
    {c : Callee} (h : wait' ∈ (c.action E dl ρ w wait args).wait?) : wait' = wait := by
  cases c with
  | value v stripped =>
    simp only [action] at h
    split at h <;> simp_all [Action.wait?]
  | _ => simpa [action, Action.wait?, eq_comm] using h

theorem Callee.action_targets {dl : DataLayout} {ρ : ℕ → ℕ} {wait : Wait} {args : List ℕ}
    {c : Callee} : (c.action E dl ρ w wait args).targets ⊆ wait.targets := by
  cases c with
  | value v stripped =>
    simp only [action]
    split <;> simp [Action.targets]
  | _ => exact List.Subset.refl _

theorem Inst.action_targets {dl : DataLayout} {ρ : ℕ → ℕ} {i : Inst} :
    (i.action E dl ρ w).targets ⊆ i.successors := by
  cases i with
  | call dst callee args => exact Callee.action_targets
  | term t =>
    cases t with
    | condBr c l₁ l₂ =>
      simp only [action, Terminator.action, Action.targets, successors, Terminator.successors]
      split_ifs <;> simp
    | switch v cases otherwise =>
      simpa [action, Terminator.action, Action.targets, successors, Terminator.successors]
        using switchTarget_mem _ cases otherwise
    | invoke dst callee args normal target => exact Callee.action_targets
    | _ => exact List.Subset.refl _
  | _ => exact List.nil_subset _

end Squint.IR
