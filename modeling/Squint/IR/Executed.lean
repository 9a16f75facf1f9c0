import Squint.IR.Exactness
import Squint.IR.Legacy

/-! The instructions that an execution goes through, and what each of them is to the older pass: the
call of a wrapper, an instruction that has to be announced, or neither. -/
namespace Squint.IR

variable {W : Type}

/-- An instruction as it is executed: in which function, while how many wrappers called from other
functions run, and on which registers. -/
structure Executed where
  fn : Name
  tracing : ℕ
  inst : Inst
  regs : ℕ → ℕ

def executed : List Frame → List Executed
  | [] => []
  | f :: fs => f.rest.head?.toList.map fun i => ⟨f.fn.name, tracing (f :: fs), i, f.regs⟩

theorem executed_cons {f : Frame} {i : Inst} {rest : List Inst} (h : f.rest = i :: rest)
    (fs : List Frame) : executed (f :: fs) = [⟨f.fn.name, tracing (f :: fs), i, f.regs⟩] := by
  simp [executed, h]

/-- A step that reports the instruction it executes. -/
def watch (E : Env W) (M : Module) (s : State W) : Option (State W × List Executed) :=
  (step E M s).map fun p => (p.1, executed s.stack)

def Inst.call? : Inst → Option (Callee × List Operand)
  | .call _ c args => some (c, args)
  | .term (.invoke _ c args _ _) => some (c, args)
  | _ => none

/-- The function that an instruction passes control to, defined or not, and the arguments. -/
def Inst.transfer? (E : Env W) (dl : DataLayout) (ρ : ℕ → ℕ) (i : Inst) : Option (Name × List ℕ) :=
  i.call?.bind fun q => (q.1.target E dl ρ).map fun n => (n, q.2.map (·.eval E dl ρ))

theorem Inst.callee?_eq (i : Inst) : i.callee? = i.call?.map (·.1) := by
  unfold callee? call?
  split <;> simp_all

theorem Inst.transfer?_not_wrapper {E : Env W} {dl : DataLayout} {ρ : ℕ → ℕ} {i : Inst}
    (hi : NoWrapperCall i) (hind : ∀ a n, E.functionAt a = some n → isWrapper n = false) :
    (i.transfer? E dl ρ).filter (isWrapper ·.1) = none := by
  rw [Option.filter_eq_none_iff]
  intro x hx
  obtain ⟨⟨c, args⟩, hc, hx⟩ := Option.bind_eq_some_iff.mp hx
  obtain ⟨n, hn, rfl⟩ := Option.map_eq_some_iff.mp hx
  have hcallee : i.callee? = some c := by rw [callee?_eq, hc]; rfl
  simp [target_not_wrapper hi hind hcallee hn]

/-- An operand as the address that `CreatePointerCast` makes of it. -/
def Operand.asInteger (E : Env W) (dl : DataLayout) (ρ : ℕ → ℕ) (v : Operand) : ℕ :=
  if v.ty = .int (dl.pointerSizeInBits 0) then v.eval E dl ρ
  else v.addr E dl ρ % 2 ^ dl.pointerSizeInBits 0

namespace Legacy

/-- What has to be announced before an instruction is executed. -/
def due (E : Env W) (dl : DataLayout) (t : Sites) (ρ : ℕ → ℕ) : Inst → Option Announcement
  | .op _ .fence _ => if t.fences then some (writeFenceTraceWrapper, []) else none
  | .store v p => some (writeStoreTraceWrapper,
      storeArguments dl (p.addr E dl ρ) (dl.typeStoreSize v.ty))
  | .call _ c (a :: _) =>
    if Contains (calledName c) t.flushName then
      some (writeFlushTraceWrapper, [a.asInteger E dl ρ])
    else none
  | _ => none

inductive Role where
  | call (x : Announcement)
  | target (x : Announcement)
  deriving DecidableEq, Repr

def role (E : Env W) (dl : DataLayout) (t : Sites) (e : Executed) : Option Role :=
  if isWrapper e.fn then none
  else
    match (e.inst.transfer? E dl e.regs).filter (isWrapper ·.1) with
    | some x => some (.call x)
    | none => (due E dl t e.regs e.inst).map .target

/-- An instruction together with its announcement, or by itself. -/
inductive Act where
  | other
  | announced (x : Announcement)

def Act.roles : Act → List (Option Role)
  | other => [none]
  | announced x => [some (.call x), some (.target x)]

/-- On each level the log is made of acts; of the last one, the roles `owed` are still to come. -/
def Announces (E : Env W) (dl : DataLayout) (t : Sites) (L : List Executed)
    (owed : ℕ → List (Option Role)) : Prop :=
  Lib.ExactOn Executed.tracing (role E dl t) Act.roles L owed

/-! ## Callbacks -/

section
variable {E : Env W} {dl : DataLayout} {t : Sites} {fresh : ℕ}

def castRegs (E : Env W) (dl : DataLayout) (fresh : ℕ) (v : Operand) (ty : Ty) (ρ : ℕ → ℕ) :
    ℕ → ℕ :=
  Function.update ρ fresh (v.addr E dl ρ % 2 ^ ty.intBits)

theorem createPointerCast_eval {v : Operand} {q : List Inst × Operand}
    (hv : ∀ r ∈ v.regs, r < fresh)
    (h : createPointerCast fresh v (.int (dl.pointerSizeInBits 0)) = .ok q) :
    (q.1 = [] ∧ ∀ ρ, q.2.eval E dl ρ = v.asInteger E dl ρ) ∨
      (q.1 = [.ptrToInt fresh v (.int (dl.pointerSizeInBits 0))] ∧
        ∀ ρ, q.2.eval E dl (castRegs E dl fresh v (.int (dl.pointerSizeInBits 0)) ρ) =
          v.asInteger E dl (castRegs E dl fresh v (.int (dl.pointerSizeInBits 0)) ρ)) := by
  unfold createPointerCast at h
  split_ifs at h with heq hp
  · obtain rfl := Except.ok.inj h
    exact .inl ⟨rfl, fun ρ => by simp [Operand.asInteger, heq]⟩
  · cases v with
    | const c =>
      obtain rfl := Except.ok.inj h
      refine .inl ⟨rfl, fun ρ => ?_⟩
      rw [Operand.asInteger, if_neg heq]
      rfl
    | reg r ty =>
      obtain rfl := Except.ok.inj h
      have hne : r ≠ fresh := (hv r (by simp [Operand.regs])).ne
      refine .inr ⟨rfl, fun ρ => ?_⟩
      simp [Operand.asInteger, heq, castRegs, Operand.eval, Operand.addr, Ty.intBits,
        Function.update_of_ne hne]

/-- What an instruction of the source asks of the pass. -/
structure Plain (n : ℕ) (i : Inst) : Prop where
  regs : ∀ r ∈ i.regs, r < n
  store_typed : ∀ v p, i = .store v p → p.ty.pointee? = some v.ty
  noWrapperCall : NoWrapperCall i

/-- `new` announces what is due before `i`, in a cast if need be. -/
def Announcing (E : Env W) (dl : DataLayout) (t : Sites) (fresh : ℕ) (i : Inst)
    (new : List Inst) : Prop :=
  (∃ n args, isWrapper n = true ∧ new = [.call none (.fn n) args] ∧
    ∀ ρ, due E dl t ρ i = some (n, args.map (·.eval E dl ρ))) ∨
  ∃ v ty n args, isWrapper n = true ∧ new = [.ptrToInt fresh v ty, .call none (.fn n) args] ∧
    ∀ ρ, due E dl t (castRegs E dl fresh v ty ρ) i =
      some (n, args.map (·.eval E dl (castRegs E dl fresh v ty ρ)))

theorem announcing_cast_call {i : Inst} {v : Operand} {q : List Inst × Operand} {n : Name}
    {rest : List Operand} (hn : isWrapper n = true) (hv : ∀ r ∈ v.regs, r < fresh)
    (hq : createPointerCast fresh v (.int (dl.pointerSizeInBits 0)) = .ok q)
    (hdue : ∀ ρ, due E dl t ρ i = some (n, v.asInteger E dl ρ :: rest.map (·.eval E dl ρ))) :
    Announcing E dl t fresh i (q.1 ++ [.call none (.fn n) (q.2 :: rest)]) := by
  rcases createPointerCast_eval (E := E) hv hq with ⟨hnil, heval⟩ | ⟨hcast, heval⟩
  · refine .inl ⟨n, q.2 :: rest, hn, by rw [hnil]; rfl, fun ρ => ?_⟩
    rw [List.map_cons, heval, hdue]
  · refine .inr ⟨v, _, n, q.2 :: rest, hn, by rw [hcast]; rfl, fun ρ => ?_⟩
    rw [List.map_cons, heval, hdue]

theorem callback_due (E : Env W) {i : Inst} {new : List Inst} (hi : Plain fresh i)
    (h : callback dl t fresh i = .ok new) :
    (new = [] ∧ ∀ ρ, due E dl t ρ i = none) ∨ Announcing E dl t fresh i new := by
  cases isCallback_of_ok h with
  | fence ht => exact .inr (.inl ⟨_, [], isWrapper_fence, rfl, fun ρ => by simp [due, ht]⟩)
  | @store v p ty q hp hq =>
    obtain rfl : v.ty = ty := Option.some.inj ((hi.store_typed v p rfl).symm.trans hp)
    have hne : p.ty ≠ .int (dl.pointerSizeInBits 0) := fun heq => by
      simp [heq, Ty.pointee?] at hp
    refine .inr (announcing_cast_call isWrapper_store
      (fun r hr => hi.regs r (by simp [Inst.regs, hr])) hq fun ρ => ?_)
    simp [due, storeArguments, Operand.asInteger, hne, Operand.eval, Const.eval]
  | flush hc hq =>
    exact .inr (announcing_cast_call isWrapper_flush
      (fun r hr => hi.regs r (by simp [Inst.regs, hr])) hq fun ρ => by simp [due, hc])
  | none hfence hstore hcall =>
    refine .inl ⟨rfl, fun ρ => ?_⟩
    unfold due
    split
    · simp [hfence _ _ rfl]
    · cases hstore
    · exact if_neg (hcall _ _ _ rfl)
    · rfl

end

end Legacy

end Squint.IR
