import Squint.IR.Placement

/-! The older of the two plugins, a pass for the legacy pass manager. One loop over a function puts
a callback in front of every fence, every store and every call of a flush function, which it knows
by the name of the called operand. -/
namespace Squint.IR.Legacy

def flushFunctionName : Name := "nvdimm_flush"

/-- The called function's name, or that of the called operand without its pointer casts. -/
def calledName : Callee → Name
  | .fn n => n
  | .value _ stripped => stripped
  | .asm _ => ""
  | .mem .memcpy => "llvm.memcpy.p0i8.p0i8.i64"
  | .mem .memmove => "llvm.memmove.p0i8.p0i8.i64"
  | .mem .memset => "llvm.memset.p0i8.i64"

/-- What the loop looks for, apart from stores. -/
structure Sites where
  flushName : Name
  fences : Bool
  deriving DecidableEq, Repr

def sites : Sites := ⟨flushFunctionName, true⟩

/-- The callback in front of a call that passes `args` to a flush function. -/
def flushSite (dl : DataLayout) (fresh : ℕ) : List Operand → Checked (List Inst)
  | [] => .error .argument
  | addr :: _ => do
    let (cast, addrLong) ← createPointerCast fresh addr (.int (dl.pointerSizeInBits 0))
    .ok (cast ++ [.call none (.fn writeFlushTraceWrapper) [addrLong]])

/-- The loop body: what goes in front of an instruction. An invoke is not a `CallInst`. -/
def callback (dl : DataLayout) (t : Sites) (fresh : ℕ) : Inst → Checked (List Inst)
  | .op _ .fence _ => .ok (if t.fences then fenceCallback else [])
  | .store _ pointer => storeCallback dl fresh pointer
  | .call _ callee args =>
    if Contains (calledName callee) t.flushName then flushSite dl fresh args else .ok []
  | _ => .ok []

/-- What is inserted stands before the instruction that the iterator is at, so that the loop never
gets to it. -/
def instrumentInsts (dl : DataLayout) (t : Sites) :
    Cursor → List Inst → Checked (List Inst × Cursor)
  | c, [] => .ok ([], c)
  | c, i :: rest => do
    let new ← callback dl t c.fresh i
    let (rest', c') ←
      instrumentInsts dl t ⟨c.fresh + new.length, c.changed || !new.isEmpty⟩ rest
    .ok (new ++ i :: rest', c')

def instrumentBlocks (dl : DataLayout) (t : Sites) :
    Cursor → List Block → Checked (List Block × Cursor)
  | c, [] => .ok ([], c)
  | c, b :: rest => do
    let (insts, c₁) ← instrumentInsts dl t c b.insts
    let (rest', c₂) ← instrumentBlocks dl t c₁ rest
    .ok ({ b with insts := insts } :: rest', c₂)

def instrumentBody (dl : DataLayout) (t : Sites) (F : Function) : Checked (Function × Bool) := do
  let (blocks, c) ← instrumentBlocks dl t ⟨F.freshReg, false⟩ F.blocks
  .ok ({ F with blocks := blocks }, c.changed)

def callbacks (M : Module) : Module :=
  initializeFlushCallbacks
    (initializeFenceCallbacks (initializeStoreCallbacks M (getIntPtrTy M))) (getIntPtrTy M)

def runOnFunction (t : Sites) (M : Module) (F : Function) : Checked (Module × Bool) :=
  if instrumentedFunction F then .ok (M, false)
  else do
    let (F', changed) ← instrumentBody M.dataLayout t F
    .ok ((callbacks M).update F', changed)

def runOn (t : Sites) : Module → List Name → Checked Module
  | M, [] => .ok M
  | M, f :: fs =>
    match M.lookup f with
    | none => runOn t M fs
    | some F => do
      let (M', _) ← runOnFunction t M F
      runOn t M' fs

theorem not_contains_of_isWrapper {n : Name} (h : isWrapper n = true) :
    ¬ Contains n flushFunctionName := by
  rcases isWrapper_iff.mp h with rfl | rfl | rfl <;> decide

/-! ## Bodies -/

/-- `l'` is `l` with the callback of each instruction in front of it. -/
inductive Woven (dl : DataLayout) (t : Sites) (n : ℕ) : List Inst → List Inst → Prop
  | nil : Woven dl t n [] []
  | cons {i : Inst} {new l l' : List Inst} {fresh : ℕ} (hn : n ≤ fresh)
      (hnew : callback dl t fresh i = .ok new) (hl : Woven dl t n l l') :
      Woven dl t n (i :: l) (new ++ i :: l')

variable {dl : DataLayout} {t : Sites}

theorem Woven.mono {m n : ℕ} (hmn : m ≤ n) {l l' : List Inst} (h : Woven dl t n l l') :
    Woven dl t m l l' := by
  induction h with
  | nil => exact .nil
  | cons hn hnew _ ih => exact .cons (hmn.trans hn) hnew ih

theorem instrumentInsts_woven {l l' : List Inst} {c c' : Cursor}
    (h : instrumentInsts dl t c l = .ok (l', c')) :
    c.fresh ≤ c'.fresh ∧ Woven dl t c.fresh l l' := by
  induction l generalizing c l' with
  | nil =>
    simp only [instrumentInsts, Except.ok.injEq, Prod.mk.injEq] at h
    obtain ⟨rfl, rfl⟩ := h
    exact ⟨le_rfl, .nil⟩
  | cons i l ih =>
    obtain ⟨new, hnew, h⟩ := bind_eq_ok h
    obtain ⟨q, hq, h⟩ := bind_eq_ok h
    obtain ⟨rfl, rfl⟩ := Prod.mk.inj (Except.ok.inj h)
    obtain ⟨hle, hw⟩ := ih hq
    exact ⟨(Nat.le_add_right _ _).trans hle, .cons le_rfl hnew (hw.mono (Nat.le_add_right _ _))⟩

def WovenBlock (dl : DataLayout) (t : Sites) (n : ℕ) (b b' : Block) : Prop :=
  b'.label = b.label ∧ Woven dl t n b.insts b'.insts

theorem instrumentBlocks_woven {bs bs' : List Block} {c c' : Cursor}
    (h : instrumentBlocks dl t c bs = .ok (bs', c')) :
    List.Forall₂ (WovenBlock dl t c.fresh) bs bs' := by
  induction bs generalizing c bs' with
  | nil =>
    simp only [instrumentBlocks, Except.ok.injEq, Prod.mk.injEq] at h
    obtain ⟨rfl, -⟩ := h
    exact .nil
  | cons b bs ih =>
    obtain ⟨q, hq, h⟩ := bind_eq_ok h
    obtain ⟨q', hq', h⟩ := bind_eq_ok h
    obtain ⟨rfl, rfl⟩ := Prod.mk.inj (Except.ok.inj h)
    obtain ⟨hle, hw⟩ := instrumentInsts_woven hq
    exact .cons ⟨rfl, hw⟩ ((ih hq').imp fun _ _ hb => ⟨hb.1, hb.2.mono hle⟩)

def WovenFunction (dl : DataLayout) (t : Sites) (F F' : Function) : Prop :=
  if isWrapper F.name then F' = F
  else F' = { F with blocks := F'.blocks } ∧
    List.Forall₂ (WovenBlock dl t F.freshReg) F.blocks F'.blocks

theorem instrumentBody_woven {F F' : Function} {changed : Bool} (hw : isWrapper F.name = false)
    (h : instrumentBody dl t F = .ok (F', changed)) : WovenFunction dl t F F' := by
  obtain ⟨q, hq, h⟩ := bind_eq_ok h
  obtain ⟨rfl, -⟩ := Prod.mk.inj (Except.ok.inj h)
  simp only [WovenFunction, hw, Bool.false_eq_true, if_false]
  exact ⟨trivial, instrumentBlocks_woven hq⟩

/-! ## Callbacks -/

/-- A call that the loop looks for passes an address first. -/
def FlushSiteTyped (dl : DataLayout) (t : Sites) (i : Inst) : Prop :=
  ∀ d c args, i = .call d c args → Contains (calledName c) t.flushName →
    ∃ a rest, args = a :: rest ∧ (a.ty.isPointer = true ∨ a.ty = .int (dl.pointerSizeInBits 0))

theorem createPointerCast_ok {v : Operand} {w : ℕ} (h : v.ty.isPointer = true ∨ v.ty = .int w)
    (fresh : ℕ) : ∃ q, createPointerCast fresh v (.int w) = .ok q := by
  rcases h with h | h
  · exact ⟨_, createPointerCast_of_isPointer h fresh w⟩
  · exact ⟨_, if_pos h⟩

theorem callback_ok {i : Inst} (hs : ∀ v p, i = .store v p → p.ty.pointee? = some v.ty)
    (hf : FlushSiteTyped dl t i) (fresh : ℕ) : ∃ new, callback dl t fresh i = .ok new := by
  unfold callback
  split
  · exact ⟨_, rfl⟩
  · rename_i v p
    exact ⟨_, storeCallback_of_pointee (hs v p rfl) dl fresh⟩
  · rename_i d c args
    split_ifs with hc
    · obtain ⟨a, rest, rfl, ha⟩ := hf d c args rfl hc
      obtain ⟨q, hq⟩ := createPointerCast_ok ha fresh
      exact ⟨_, by simp only [flushSite, hq, bind, Except.bind]; rfl⟩
    · exact ⟨[], rfl⟩
  · exact ⟨[], rfl⟩

/-- The pass can deal with the instructions: stores and flush calls are through pointers. -/
def SitesTyped (dl : DataLayout) (t : Sites) (l : List Inst) : Prop :=
  StoresTyped l ∧ ∀ i ∈ l, FlushSiteTyped dl t i

theorem instrumentInsts_ok {l : List Inst} (hl : SitesTyped dl t l) (c : Cursor) :
    ∃ q, instrumentInsts dl t c l = .ok q := by
  induction l generalizing c with
  | nil => exact ⟨_, rfl⟩
  | cons i l ih =>
    obtain ⟨new, hnew⟩ := callback_ok (fun v p hi => hl.1 v p (by simp [hi])) (hl.2 i (by simp))
      c.fresh
    obtain ⟨q, hq⟩ := ih ⟨fun v p h => hl.1 v p (by simp [h]), fun i hi => hl.2 i (by simp [hi])⟩
      ⟨c.fresh + new.length, c.changed || !new.isEmpty⟩
    exact ⟨_, by simp only [instrumentInsts, hnew, hq, bind, Except.bind]; rfl⟩

theorem instrumentBlocks_ok {bs : List Block} (h : ∀ b ∈ bs, SitesTyped dl t b.insts)
    (c : Cursor) : ∃ q, instrumentBlocks dl t c bs = .ok q := by
  induction bs generalizing c with
  | nil => exact ⟨_, rfl⟩
  | cons b bs ih =>
    obtain ⟨q, hq⟩ := instrumentInsts_ok (h b (by simp)) c
    obtain ⟨q', hq'⟩ := ih (fun b hb => h b (by simp [hb])) q.2
    exact ⟨_, by simp only [instrumentBlocks, hq, hq', bind, Except.bind]; rfl⟩

theorem instrumentBody_ok {F : Function} (h : ∀ b ∈ F.blocks, SitesTyped dl t b.insts) :
    ∃ F' changed, instrumentBody dl t F = .ok (F', changed) := by
  obtain ⟨q, hq⟩ := instrumentBlocks_ok h ⟨F.freshReg, false⟩
  exact ⟨_, _, by simp only [instrumentBody, hq, bind, Except.bind]; rfl⟩

/-- A cast as the pass makes it: nothing is inserted, or one cast of a register. -/
theorem createPointerCast_cases {fresh w : ℕ} {v : Operand} {q : List Inst × Operand}
    (h : createPointerCast fresh v (.int w) = .ok q) :
    (q.1 = [] ∧ q.2.regs ⊆ v.regs) ∨
      (∃ r ty, v = .reg r ty ∧ v.ty ≠ .int w ∧
        q = ([.ptrToInt fresh v (.int w)], .reg fresh (.int w))) := by
  unfold createPointerCast at h
  split_ifs at h with heq hp
  · obtain rfl := Except.ok.inj h
    exact .inl ⟨rfl, List.Subset.refl _⟩
  · cases v with
    | const c =>
      obtain rfl := Except.ok.inj h
      exact .inl ⟨rfl, by simp [Operand.regs]⟩
    | reg r ty => exact .inr ⟨r, ty, rfl, heq, (Except.ok.inj h).symm⟩

/-- The callbacks, by what they are in front of. -/
inductive IsCallback (dl : DataLayout) (t : Sites) (fresh : ℕ) : Inst → List Inst → Prop
  | fence {d : Option ℕ} {args : List Operand} (ht : t.fences = true) :
      IsCallback dl t fresh (.op d .fence args) fenceCallback
  | store {v p : Operand} {ty : Ty} {q : List Inst × Operand} (hp : p.ty.pointee? = some ty)
      (hq : createPointerCast fresh p (.int (dl.pointerSizeInBits 0)) = .ok q) :
      IsCallback dl t fresh (.store v p) (q.1 ++ [.call none (.fn writeStoreTraceWrapper)
        [q.2, .const (.int 32 (toInt32 (dl.typeStoreSize ty)))]])
  | flush {d : Option ℕ} {c : Callee} {a : Operand} {rest : List Operand} {q : List Inst × Operand}
      (hc : Contains (calledName c) t.flushName)
      (hq : createPointerCast fresh a (.int (dl.pointerSizeInBits 0)) = .ok q) :
      IsCallback dl t fresh (.call d c (a :: rest))
        (q.1 ++ [.call none (.fn writeFlushTraceWrapper) [q.2]])
  | none {i : Inst} (hfence : ∀ d args, i = .op d .fence args → t.fences = false)
      (hstore : i.isStore = false)
      (hcall : ∀ d c args, i = .call d c args → ¬ Contains (calledName c) t.flushName) :
      IsCallback dl t fresh i []

theorem isCallback_of_ok {fresh : ℕ} {i : Inst} {new : List Inst}
    (h : callback dl t fresh i = .ok new) : IsCallback dl t fresh i new := by
  unfold callback at h
  split at h
  · obtain rfl := Except.ok.inj h
    split_ifs with ht
    · exact .fence ht
    · exact .none (by simpa using ht) rfl (by simp)
  · obtain ⟨⟨cast, addr⟩, hq, h⟩ := bind_eq_ok h
    dsimp only at h
    split at h
    · cases h
    · rename_i ty hp
      obtain rfl := Except.ok.inj h
      exact .store hp hq
  · rename_i d c args
    split_ifs at h with hc
    · cases args with
      | nil => cases h
      | cons a rest =>
        obtain ⟨q, hq, h⟩ := bind_eq_ok h
        obtain rfl := Except.ok.inj h
        exact .flush hc hq
    · obtain rfl := Except.ok.inj h
      exact .none (by simp) rfl (by simpa using hc)
  · rename_i hfence hstore hcall
    obtain rfl := Except.ok.inj h
    refine .none (fun d args hi => (hfence d args hi).elim) ?_ fun d c args hi =>
      (hcall d c args hi).elim
    cases i <;> simp_all [Inst.isStore]

/-- A callback is nothing, a call of a wrapper, or a cast and such a call. -/
theorem callback_cases {fresh : ℕ} {i : Inst} {new : List Inst}
    (h : callback dl t fresh i = .ok new) :
    new = [] ∨ (i.isPhi = false ∧ ∃ n args, isWrapper n = true ∧
      (new = [.call none (.fn n) args] ∨
        ∃ v ty, new = [.ptrToInt fresh v ty, .call none (.fn n) args])) := by
  have hcast : ∀ {v : Operand} {w : ℕ} {q : List Inst × Operand} {n : Name} {rest : List Operand},
      createPointerCast fresh v (.int w) = .ok q → isWrapper n = true →
      ∃ m args, isWrapper m = true ∧ (q.1 ++ [.call none (.fn n) (q.2 :: rest)] =
          [.call none (.fn m) args] ∨
        ∃ v' ty, q.1 ++ [.call none (.fn n) (q.2 :: rest)] =
          [.ptrToInt fresh v' ty, .call none (.fn m) args]) := by
    intro v w q n rest hq hn
    rcases createPointerCast_cases hq with ⟨hnil, -⟩ | ⟨r, ty, rfl, -, rfl⟩
    · exact ⟨n, _, hn, .inl (by rw [hnil]; rfl)⟩
    · exact ⟨n, _, hn, .inr ⟨_, _, rfl⟩⟩
  cases isCallback_of_ok h with
  | fence => exact .inr ⟨rfl, _, _, isWrapper_fence, .inl rfl⟩
  | store _ hq => exact .inr ⟨rfl, hcast hq isWrapper_store⟩
  | flush _ hq => exact .inr ⟨rfl, hcast hq isWrapper_flush⟩
  | none => exact .inl rfl

theorem callback_silent {fresh : ℕ} {i : Inst} {new : List Inst}
    (h : callback dl t fresh i = .ok new) : ∀ j ∈ new, Silent fresh j := by
  rcases callback_cases h with rfl | ⟨-, n, args, hn, rfl | ⟨v, ty, rfl⟩⟩
  · simp
  · simpa [Silent] using hn
  · simpa [Silent] using hn

/-- The loop would find nothing to do at what it has inserted. -/
theorem callback_of_silent {n fresh : ℕ} {i : Inst} (hi : Silent n i)
    (ht : ∀ w, isWrapper w = true → ¬ Contains w t.flushName) : callback dl t fresh i = .ok [] := by
  unfold Silent at hi
  split at hi
  · rfl
  · rename_i w args
    exact if_neg (ht w hi)
  · exact hi.elim

theorem Woven.inserted {n : ℕ} {l l' : List Inst} (h : Woven dl t n l l') : Inserted n l l' := by
  induction h with
  | nil => exact .nil
  | @cons i new l l' fresh hn hnew _ ih =>
    rcases callback_cases hnew with rfl | ⟨hphi, -⟩
    · exact .keep ih
    · exact .insert_all (fun j hj => (callback_silent hnew j hj).mono hn) (by simpa using hphi)
        (.keep ih)

/-! ## Deleting what was inserted -/

def isSilent (n : ℕ) : Inst → Bool
  | .ptrToInt r _ _ => n ≤ r
  | .call none (.fn w) _ => isWrapper w
  | _ => false

theorem isSilent_iff {n : ℕ} {i : Inst} : isSilent n i = true ↔ Silent n i := by
  unfold isSilent Silent
  split <;> simp

/-- Without the casts into registers from `n` on and without the calls of wrappers. -/
def erase (n : ℕ) (l : List Inst) : List Inst := l.filter fun i => !isSilent n i

theorem Woven.erase_eq {n : ℕ} {l l' : List Inst} (h : Woven dl t n l l')
    (hl : ∀ i ∈ l, ¬ Silent n i) : erase n l' = l := by
  induction h with
  | nil => rfl
  | @cons i new l l' fresh hn hnew _ ih =>
    have hsilent : ∀ j ∈ new, isSilent n j = true := fun j hj =>
      isSilent_iff.mpr ((callback_silent hnew j hj).mono hn)
    have hi : isSilent n i = false :=
      Bool.eq_false_iff.mpr fun h => hl i (by simp) (isSilent_iff.mp h)
    have htail := ih fun j hj => hl j (by simp [hj])
    have hnil : new.filter (fun j => !isSilent n j) = [] :=
      List.filter_eq_nil_iff.mpr fun j hj => by simp [hsilent j hj]
    simp only [erase] at htail ⊢
    simp [hnil, hi, htail]

theorem not_silent {F : Function} {b : Block} {i : Inst} (hb : b ∈ F.blocks) (hi : i ∈ b.insts)
    (hc : NoWrapperCall i) : ¬ Silent F.freshReg i := by
  intro hs
  unfold Silent at hs
  split at hs
  · have := Function.lt_freshReg (Function.mem_regs_of_inst hb hi (r := _) List.mem_cons_self)
    omega
  · rename_i w args
    simp [hc w rfl] at hs
  · exact hs

/-! ## Modules -/

theorem callbacks_defs (M : Module) : (callbacks M).defs = M.defs ∧
    (callbacks M).dataLayout = M.dataLayout := by
  simp [callbacks, initializeFlushCallbacks, initializeFenceCallbacks, initializeStoreCallbacks,
    Module.getOrInsertFunction_defs]

theorem WovenFunction.extends {F F' : Function} (h : WovenFunction dl t F F') : F.Extends F' := by
  unfold WovenFunction at h
  split_ifs at h with hw
  · subst h
    exact .refl F'
  · obtain ⟨hF', hbs⟩ := h
    refine ⟨by rw [hF'], by rw [hF'], by rw [hF'], ?_, fun hw' => absurd hw' hw⟩
    exact hbs.imp fun _ _ hb => ⟨hb.1, hb.2.inserted⟩

/-- What has become of a function when the pass has still to run on those of `vs`. -/
def Midway (dl : DataLayout) (t : Sites) (vs : List Name) (F F' : Function) : Prop :=
  vs.count F.name = 1 ∧ F' = F ∨ vs.count F.name = 0 ∧ WovenFunction dl t F F'

section
variable {F F' : Function} {f : Name} {vs : List Name}

theorem Midway.name_eq (h : Midway dl t vs F F') : F'.name = F.name := by
  rcases h with ⟨-, rfl⟩ | ⟨-, h⟩
  · rfl
  · exact h.extends.name

theorem Midway.next_of_ne (h : Midway dl t (f :: vs) F F') (hne : F.name ≠ f) :
    Midway dl t vs F F' := by
  unfold Midway at h ⊢
  rwa [List.count_cons_of_ne hne.symm] at h

theorem Midway.next_of_eq (h : Midway dl t (f :: vs) F F') (he : F.name = f) :
    F' = F ∧ vs.count F.name = 0 := by
  subst he
  simp only [Midway, List.count_cons_self, Nat.add_eq_right, Nat.add_eq_zero_iff, one_ne_zero,
    and_false, false_and, or_false] at h
  exact ⟨h.2, h.1⟩

end

theorem runOnFunction_midway {M M₁ M₂ : Module} {f : Name} {vs : List Name} {F : Function}
    {changed : Bool} (hn : (M.defs.map (·.name)).Nodup)
    (h : List.Forall₂ (Midway M₁.dataLayout t (f :: vs)) M.defs M₁.defs)
    (hnames : M₁.defs.map (·.name) = M.defs.map (·.name)) (hF : M₁.lookup f = some F)
    (hrun : runOnFunction t M₁ F = .ok (M₂, changed)) :
    M₂.dataLayout = M₁.dataLayout ∧ List.Forall₂ (Midway M₁.dataLayout t vs) M.defs M₂.defs := by
  obtain ⟨hmem, rfl⟩ := Module.lookup_mem hF
  unfold runOnFunction at hrun
  split_ifs at hrun with hw
  · simp only [Except.ok.injEq, Prod.mk.injEq] at hrun
    obtain ⟨rfl, -⟩ := hrun
    refine ⟨rfl, h.imp fun G G' hG => ?_⟩
    by_cases he : G.name = F.name
    · obtain ⟨rfl, hcount⟩ := hG.next_of_eq he
      exact .inr ⟨hcount, by simp [WovenFunction, he, show isWrapper F.name = true from hw]⟩
    · exact hG.next_of_ne he
  · obtain ⟨q, hq, hrun⟩ := bind_eq_ok hrun
    obtain ⟨rfl, -⟩ := Prod.mk.inj (Except.ok.inj hrun)
    have hwoven := instrumentBody_woven (Bool.eq_false_iff.mpr hw) hq
    obtain ⟨hd, hl⟩ := callbacks_defs M₁
    refine ⟨hl, Module.forall₂_update (R := Midway M₁.dataLayout t (F.name :: vs)) (hd ▸ h)
      (by rw [hd, hnames]; exact hn) (hd ▸ hmem) hwoven.extends.name (fun G hG => ?_)
      fun G G' hne hG => ?_⟩
    · obtain ⟨rfl, hcount⟩ := hG.next_of_eq hG.name_eq.symm
      exact .inr ⟨hcount, hwoven⟩
    · exact hG.next_of_ne (hG.name_eq ▸ hne)

theorem Midway.names {M M₁ : Module} {vs : List Name}
    (h : List.Forall₂ (Midway dl t vs) M.defs M₁.defs) :
    M₁.defs.map (·.name) = M.defs.map (·.name) := by
  generalize M.defs = fs at h
  generalize M₁.defs = fs' at h
  induction h with
  | nil => rfl
  | cons hF _ ih => simp [hF.name_eq, ih]

theorem Midway.of_lookup_none {M M₁ : Module} {f : Name} {vs : List Name}
    (h : List.Forall₂ (Midway dl t (f :: vs)) M.defs M₁.defs) (hl : M₁.lookup f = none) :
    List.Forall₂ (Midway dl t vs) M.defs M₁.defs := by
  refine List.forall₂_iff_get.mpr ⟨h.length_eq, fun k hk hk' => ?_⟩
  have hG := h.get hk hk'
  refine hG.next_of_ne fun heq => ?_
  exact Module.lookup_eq_none hl (List.getElem_mem hk') (hG.name_eq.trans heq)

/-- Where the pass gets to a function, it finds it as it was. -/
theorem Midway.mem_of_lookup {M M₁ : Module} {f : Name} {vs : List Name} {F : Function}
    (h : List.Forall₂ (Midway dl t (f :: vs)) M.defs M₁.defs) (hl : M₁.lookup f = some F) :
    F ∈ M.defs := by
  obtain ⟨hmem, rfl⟩ := Module.lookup_mem hl
  obtain ⟨G, hG, hmid⟩ := exists_left_of_forall₂ h hmem
  obtain rfl : F = G := (hmid.next_of_eq hmid.name_eq.symm).1
  exact hG

theorem runOn_midway {M M₁ M' : Module} {vs : List Name} (hn : (M.defs.map (·.name)).Nodup)
    (h : List.Forall₂ (Midway M₁.dataLayout t vs) M.defs M₁.defs)
    (hrun : runOn t M₁ vs = .ok M') :
    M'.dataLayout = M₁.dataLayout ∧
      List.Forall₂ (Midway M₁.dataLayout t []) M.defs M'.defs := by
  induction vs generalizing M₁ with
  | nil =>
    obtain rfl := Except.ok.inj hrun
    exact ⟨rfl, h⟩
  | cons f vs ih =>
    unfold runOn at hrun
    split at hrun
    · rename_i hl
      exact ih (Midway.of_lookup_none h hl) hrun
    · rename_i F hl
      obtain ⟨q, hq, hrun⟩ := bind_eq_ok hrun
      obtain ⟨hd, hnext⟩ := runOnFunction_midway hn h (Midway.names h) hl hq
      rw [← hd] at hnext ⊢
      exact ih hnext hrun

/-- What a whole run over the functions of a module does, if LLVM does not stop it. -/
theorem runOn_woven {M M' : Module} {vs : List Name} (hn : (M.defs.map (·.name)).Nodup)
    (hvs : ∀ F ∈ M.defs, vs.count F.name = 1) (hrun : runOn t M vs = .ok M') :
    M'.dataLayout = M.dataLayout ∧
      List.Forall₂ (WovenFunction M.dataLayout t) M.defs M'.defs := by
  obtain ⟨hd, h⟩ := runOn_midway hn (List.forall₂_same.mpr fun F hF => .inl ⟨hvs F hF, rfl⟩) hrun
  refine ⟨hd, h.imp fun F F' hF => ?_⟩
  rcases hF with ⟨hcount, -⟩ | ⟨-, hF⟩
  · simp at hcount
  · exact hF

theorem extends_of_woven {M M' : Module} (hd : M'.dataLayout = M.dataLayout)
    (h : List.Forall₂ (WovenFunction M.dataLayout t) M.defs M'.defs) : M.Extends M' :=
  ⟨hd, h.imp fun _ _ => WovenFunction.extends⟩

/-- It is not stopped where stores and flush calls are through pointers. -/
theorem runOn_ok {M M₁ : Module} {vs : List Name} (hn : (M.defs.map (·.name)).Nodup)
    (htyped : ∀ F ∈ M.defs, isWrapper F.name = false → ∀ b ∈ F.blocks,
      SitesTyped M₁.dataLayout t b.insts)
    (h : List.Forall₂ (Midway M₁.dataLayout t vs) M.defs M₁.defs) :
    ∃ M', runOn t M₁ vs = .ok M' := by
  induction vs generalizing M₁ with
  | nil => exact ⟨M₁, rfl⟩
  | cons f vs ih =>
    cases hl : M₁.lookup f with
    | none =>
      obtain ⟨M', hrun⟩ := ih htyped (Midway.of_lookup_none h hl)
      exact ⟨M', by simpa only [runOn, hl] using hrun⟩
    | some F =>
      obtain ⟨⟨M₂, changed⟩, hq⟩ : ∃ q, runOnFunction t M₁ F = .ok q := by
        unfold runOnFunction
        split_ifs with hw
        · exact ⟨_, rfl⟩
        · obtain ⟨F', changed, hbody⟩ := instrumentBody_ok
            (htyped F (Midway.mem_of_lookup h hl) (Bool.eq_false_iff.mpr hw))
          exact ⟨_, by simp only [hbody, bind, Except.bind]; rfl⟩
      obtain ⟨hd, hnext⟩ := runOnFunction_midway hn h (Midway.names h) hl hq
      rw [← hd] at hnext htyped
      obtain ⟨M', hrun⟩ := ih htyped hnext
      exact ⟨M', by simpa only [runOn, hl, hq, bind, Except.bind] using hrun⟩

end Squint.IR.Legacy
