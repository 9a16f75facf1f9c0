import Squint.IR.SSA

/-! The passes leave a module that the verifier accepts: every callback goes in where its operands
are available, and old instructions keep their order and their dominance. -/
namespace Squint.IR

/-- `F'` is `F` with callbacks put in; those of block `j` have gone where `pos j` says. -/
structure Function.Embeds (dl : DataLayout) (F F' : Function) (pos : ℕ → ℕ → ℕ) : Prop where
  strictMono : ∀ j, StrictMono (pos j)
  inst : ∀ j k, F'.inst? j (pos j k) = F.inst? j k
  new : ∀ j k i, F'.inst? j k = some i → (∃ k₀, pos j k₀ = k) ∨ IsCallback dl i
  dominates : ∀ p q, F'.Dominates (p.move pos) (q.move pos) ↔ F.Dominates p q

/-- `F'` comes from `F` by putting callbacks in, and is verified. -/
structure Function.Grown (dl : DataLayout) (accepts : Name → List Ty → Prop) (F F' : Function) :
    Prop where
  name : F'.name = F.name
  params : F'.params = F.params
  ssa : F'.SSA accepts
  embeds : ∃ pos, F.Embeds dl F' pos

variable {dl : DataLayout} {accepts : Name → List Ty → Prop}

namespace Function

theorem Embeds.refl (F : Function) : F.Embeds dl F fun _ k => k where
  strictMono _ := strictMono_id
  inst _ _ := rfl
  new _ k _ _ := .inl ⟨k, rfl⟩
  dominates p q := by cases p <;> cases q <;> rfl

theorem Embeds.trans {F G H : Function} {pos pos' : ℕ → ℕ → ℕ} (h : F.Embeds dl G pos)
    (h' : G.Embeds dl H pos') : F.Embeds dl H fun j k => pos' j (pos j k) where
  strictMono j := (h'.strictMono j).comp (h.strictMono j)
  inst j k := (h'.inst j _).trans (h.inst j k)
  new j k i hi := by
    rcases h'.new j k i hi with ⟨k₁, rfl⟩ | hi'
    · rw [h'.inst] at hi
      exact (h.new j k₁ i hi).imp_left fun ⟨k₀, hk⟩ => ⟨k₀, by rw [hk]⟩
    · exact .inr hi'
  dominates p q := by
    have hmove : ∀ p : Point, p.move (fun j k => pos' j (pos j k)) = (p.move pos).move pos' := by
      intro p
      cases p <;> rfl
    rw [hmove, hmove, h'.dominates, h.dominates]

theorem Grown.refl {F : Function} (h : F.SSA accepts) : Grown dl accepts F F :=
  ⟨rfl, rfl, h, _, .refl F⟩

theorem Grown.trans {F G H : Function} (h : Grown dl accepts F G) (h' : Grown dl accepts G H) :
    Grown dl accepts F H := by
  obtain ⟨pos, hpos⟩ := h.embeds
  obtain ⟨pos', hpos'⟩ := h'.embeds
  exact ⟨h'.name.trans h.name, h'.params.trans h.params, h'.ssa, _, hpos.trans hpos'⟩

end Function

/-! ## Callbacks at a site -/

theorem supplies_const (F : Function) (p : Point) (c : Const) : F.Supplies p (.const c) :=
  ⟨by simp [Operand.regs], fun _ _ => trivial⟩

namespace Site

variable {s : Site} {F : Function} (hopen : s.Open) (h : (s.fill F []).SSA accepts)
include hopen h

theorem grown_insert {x : Inst} (hx : IsCallback dl x)
    (hacc : ∀ n tys, x.directCall = some (n, tys) → accepts n tys)
    (hfresh : ∀ r ∈ x.dst, r ∉ (s.fill F []).regs)
    (hsup : ∀ v ∈ x.operands, (s.fill F []).Supplies s.point v) :
    Function.Grown dl accepts (s.fill F []) (s.fill F [x]) := by
  refine ⟨rfl, rfl, ssa_insert hx hopen hacc hfresh hsup h, s.pos, s.strictMono_pos,
    s.inst?_fill_pos F x, fun j k i hi => ?_, fun p q => (flow_insert hx hopen).dominates_iff⟩
  rcases s.eq_or_exists_pos j k with ⟨rfl, rfl⟩ | hk
  · obtain rfl := Option.some.inj ((s.inst?_fill_new F x).symm.trans hi)
    exact .inr hx
  · exact .inl hk

theorem grown_call (n : Name) (args : List Operand)
    (hty : callbackTypes dl n = some (args.map (·.ty))) (hacc : accepts n (args.map (·.ty)))
    (hsup : ∀ v ∈ args, (s.fill F []).Supplies s.point v) :
    Function.Grown dl accepts (s.fill F []) (s.fill F [.call none (.fn n) args]) := by
  have hx : IsCallback dl (.call none (.fn n) args) := hty
  apply grown_insert hopen h hx
  · intro m tys hcall
    obtain ⟨rfl, rfl⟩ := Prod.mk.inj (Option.some.inj hcall)
    exact hacc
  · simp [Inst.dst]
  · simpa [Inst.operands, Callee.operands] using hsup

/-- An address cast in front of the call that takes it. -/
theorem grown_cast_call (fresh : ℕ) (v : Operand) (n : Name) (consts : List Const)
    (hv : v.ty.isPointer = true) (hsup : (s.fill F []).Supplies s.point v)
    (hfresh : fresh ∉ (s.fill F []).regs)
    (hty : callbackTypes dl n = some (.int (dl.pointerSizeInBits 0) :: consts.map (·.ty)))
    (hacc : accepts n (.int (dl.pointerSizeInBits 0) :: consts.map (·.ty))) :
    Function.Grown dl accepts (s.fill F [])
      (s.fill F ((pointerCast fresh v (.int (dl.pointerSizeInBits 0))).1 ++
        [.call none (.fn n) ((pointerCast fresh v (.int (dl.pointerSizeInBits 0))).2 ::
          consts.map .const)])) := by
  cases v with
  | const c =>
    have htys : ((pointerCast fresh (.const c) (.int (dl.pointerSizeInBits 0))).2 ::
        consts.map .const).map (·.ty) = .int (dl.pointerSizeInBits 0) :: consts.map (·.ty) := by
      simp [pointerCast, Operand.ty, Const.ty]
    apply grown_call hopen h n
    · rw [htys, hty]
    · rwa [htys]
    · simp [pointerCast, supplies_const]
  | reg r t =>
    let cast : Inst := .ptrToInt fresh (.reg r t) (.int (dl.pointerSizeInBits 0))
    have hcast : IsCallback dl cast := ⟨hv, rfl⟩
    have hfirst : Function.Grown dl accepts (s.fill F []) (s.fill F [cast]) :=
      grown_insert hopen h hcast (by simp [cast, Inst.directCall])
        (by simpa [cast, Inst.dst] using hfresh) (by simpa [cast, Inst.operands] using hsup)
    -- the second site is right behind the cast
    let s' : Site := { s with left := s.left ++ [cast] }
    have hfill : ∀ new, s'.fill F new = s.fill F (cast :: new) := fun new => by simp [s', fill]
    have hpoint : s'.point = s.point.move s.pos := by
      rw [point_move]
      simp [s', point, block, index]
    have havail : (s'.fill F []).Available fresh s'.point := by
      rw [hfill, hpoint]
      refine .inr ⟨s.point, ⟨cast, s.inst?_fill_new F cast, rfl, by simp [cast, Inst.dst]⟩,
        (flow_insert hcast hopen).new_dominates, fun heq => ?_⟩
      exact absurd heq.symm (s.move_pos_ne_point s.point)
    have hsup' : (s'.fill F []).Supplies s'.point (.reg fresh (.int (dl.pointerSizeInBits 0))) := by
      refine ⟨by simpa [Operand.regs] using havail, fun ty hty => ?_⟩
      rw [hfill] at hty
      exact (hty.insts _ _ _ (s.inst?_fill_new F cast)).1
    have htys :
        ((.reg fresh (.int (dl.pointerSizeInBits 0)) :: consts.map .const : List Operand).map
          (·.ty)) = .int (dl.pointerSizeInBits 0) :: consts.map (·.ty) := by
      simp [Operand.ty]
    have hsecond := grown_call (s := s') hopen (by rw [hfill]; exact hfirst.ssa) n
      (.reg fresh (.int (dl.pointerSizeInBits 0)) :: consts.map .const) (by rw [htys, hty])
      (by rwa [htys]) (by simpa [supplies_const] using hsup')
    rw [hfill, hfill] at hsecond
    exact hfirst.trans hsecond

omit hopen in
/-- What an instruction uses may stand in front of it. -/
theorem supplies_operand {i : Inst} {rest : List Inst} (hr : s.right = i :: rest)
    (hi : i.isPhi = false) {v : Operand} (hv : v ∈ i.operands) :
    (s.fill F []).Supplies s.point v := by
  have hinst : (s.fill F []).inst? s.block s.index = some i := by
    simp [inst?_fill_self, index, hr]
  exact ⟨fun r hr => h.uses _ _ i hinst hi v hv r hr, fun ty hty => (hty.insts _ _ i hinst).2 v hv⟩

end Site

/-! ## Bodies -/

theorem Site.mem_regs_fill {s : Site} {F : Function} {new : List Inst} {r : ℕ} :
    r ∈ (s.fill F new).regs ↔ r ∈ (s.fill F []).regs ∨ r ∈ new.flatMap Inst.regs := by
  simp only [Function.regs, fill, List.flatMap_append, List.flatMap_cons, List.mem_append,
    List.append_nil]
  tauto

theorem storeGroup_regs_lt {s : Site} {F : Function} {v p : Operand} {rest : List Inst} {fresh : ℕ}
    {t : Ty} (hr : s.right = .store v p :: rest) (hfresh : ∀ r ∈ (s.fill F []).regs, r < fresh) :
    ∀ r ∈ (s.fill F (storeGroup dl fresh p t)).regs,
      r < fresh + (storeGroup dl fresh p t).length := by
  have hlen : 0 < (storeGroup dl fresh p t).length := by simp [storeGroup]
  have hp : ∀ r ∈ p.regs, r < fresh := by
    intro r hrp
    have hinst : (s.fill F []).inst? s.block s.index = some (.store v p) := by
      simp [Site.inst?_fill_self, Site.index, hr]
    exact hfresh r (Function.mem_regs_of_inst? hinst (by simp [Inst.regs, hrp]))
  intro r hmem
  rcases Site.mem_regs_fill.mp hmem with hmem | hmem
  · have := hfresh r hmem
    omega
  · rcases storeGroup_regs hmem with rfl | hmem
    · omega
    · have := hp r hmem
      omega

section Bodies

variable (hacc : accepts writeStoreTraceWrapper [.int (dl.pointerSizeInBits 0), .int 32])
include hacc

theorem storeGroup_grown {s : Site} {F : Function} {v p : Operand} {rest : List Inst} {fresh : ℕ}
    (hr : s.right = .store v p :: rest) (hfresh : ∀ r ∈ (s.fill F []).regs, r < fresh)
    (h : (s.fill F []).SSA accepts) (hp : p.ty.pointee? = some v.ty) :
    Function.Grown dl accepts (s.fill F []) (s.fill F (storeGroup dl fresh p v.ty)) := by
  have hopen : s.Open := ⟨_, rest, hr, rfl, rfl⟩
  have hsup := Site.supplies_operand (F := F) h hr rfl (v := p) (by simp [Inst.operands])
  exact Site.grown_cast_call hopen h fresh p writeStoreTraceWrapper
    [.int 32 (toInt32 (dl.typeStoreSize v.ty))] (Ty.isPointer_of_pointee hp) hsup
    (fun hmem => absurd (hfresh fresh hmem) (by simp)) (callbackTypes_store dl) hacc

theorem instrumentInsts_grown {F : Function} {before after : List Block} {label : Label}
    (left : List Inst) {rest l' : List Inst} {c c' : Cursor}
    (hregs : ∀ r ∈ (Site.fill ⟨before, label, left, rest, after⟩ F []).regs, r < c.fresh)
    (h : (Site.fill ⟨before, label, left, rest, after⟩ F []).SSA accepts)
    (hrun : instrumentInsts dl c rest = .ok (l', c')) :
    Function.Grown dl accepts (Site.fill ⟨before, label, left, rest, after⟩ F [])
        (Site.fill ⟨before, label, left, l', after⟩ F []) ∧
      ∀ r ∈ (Site.fill ⟨before, label, left, l', after⟩ F []).regs, r < c'.fresh := by
  rw [instrumentInsts_eq_ok_iff] at hrun
  have hshift : ∀ left i new l, Site.fill ⟨before, label, left ++ new ++ [i], l, after⟩ F [] =
      Site.fill ⟨before, label, left, i :: l, after⟩ F new := fun left i new l => by
    simp [Site.fill]
  induction hrun generalizing left with
  | nil => exact ⟨.refl h, hregs⟩
  | @store c c' v p new rest l hnew _ ih =>
    have hp : p.ty.pointee? = some v.ty :=
      h.wellFormed.store_typed ⟨label, left ++ [] ++ .store v p :: rest⟩ (by simp [Site.fill]) v p
        (by simp)
    obtain rfl := storeCallback_eq hnew hp
    have hgroup := storeGroup_grown (s := ⟨before, label, left, .store v p :: rest, after⟩) hacc
      rfl hregs h hp
    obtain ⟨hgrown, hregs'⟩ := ih (left ++ storeGroup dl c.fresh p v.ty ++ [.store v p])
      (by rw [hshift]; exact storeGroup_regs_lt rfl hregs) (by rw [hshift]; exact hgroup.ssa)
    rw [hshift, hshift] at hgrown
    rw [hshift] at hregs'
    have hassoc : Site.fill ⟨before, label, left, .store v p :: l, after⟩ F
        (storeGroup dl c.fresh p v.ty) =
        Site.fill ⟨before, label, left, storeGroup dl c.fresh p v.ty ++ .store v p :: l, after⟩
          F [] := by
      simp [Site.fill]
    rw [hassoc] at hgrown hregs'
    exact ⟨hgroup.trans hgrown, hregs'⟩
  | @other c c' i rest l _ _ ih =>
    have hnext := hshift left i []
    simp only [List.append_nil] at hnext
    have hrest := ih (left ++ [i]) (by rwa [hnext]) (by rwa [hnext])
    rwa [hnext, hnext] at hrest

theorem instrumentBlocks_grown {F : Function} (done : List Block) {bs bs' : List Block}
    {c c' : Cursor}
    (hregs : ∀ r ∈ Function.regs { F with blocks := done ++ bs }, r < c.fresh)
    (h : Function.SSA accepts { F with blocks := done ++ bs })
    (hrun : instrumentBlocks dl c bs = .ok (bs', c')) :
    Function.Grown dl accepts { F with blocks := done ++ bs } { F with blocks := done ++ bs' } := by
  rw [instrumentBlocks_eq_ok_iff] at hrun
  induction hrun generalizing done with
  | nil => exact .refl h
  | @cons c c₁ c' b insts bs bs' hb _ ih =>
    have hfill : ∀ l, Site.fill ⟨done, b.label, [], l, bs⟩ F [] =
        { F with blocks := done ++ [⟨b.label, l⟩] ++ bs } := fun l => by simp [Site.fill]
    have hstart : ({ F with blocks := done ++ b :: bs } : Function) =
        { F with blocks := done ++ [⟨b.label, b.insts⟩] ++ bs } := by simp
    rw [hstart, ← hfill] at hregs h ⊢
    obtain ⟨hgrown, hregs'⟩ :=
      instrumentInsts_grown hacc [] hregs h (instrumentInsts_eq_ok_iff.mpr hb)
    have hssa := hgrown.ssa
    rw [hfill insts] at hregs' hssa
    have hrest := ih _ hregs' hssa
    rw [← hfill insts] at hrest
    have htrans := hgrown.trans hrest
    simpa using htrans

theorem instrumentBody_grown {F F' : Function} {changed : Bool} (h : F.SSA accepts)
    (hrun : instrumentBody dl F = .ok (F', changed)) : Function.Grown dl accepts F F' := by
  obtain ⟨q, hq, hrun⟩ := bind_eq_ok hrun
  obtain ⟨rfl, -⟩ := Prod.mk.inj (Except.ok.inj hrun)
  exact instrumentBlocks_grown hacc [] (fun _ => Function.lt_freshReg) h hq

end Bodies

/-! ## The entry block -/

theorem Function.WellFormed.entry_site {F : Function} (h : F.WellFormed) {e : Block}
    {bs : List Block} (hb : F.blocks = e :: bs) :
    Site.Open ⟨[], e.label, [], e.insts, bs⟩ ∧
      Site.fill ⟨[], e.label, [], e.insts, bs⟩ F [] = F ∧
      ∀ new, F.prepend e bs new = Site.fill ⟨[], e.label, [], e.insts, bs⟩ F new := by
  refine ⟨?_, ?_, fun new => by simp [Function.prepend, Site.fill]⟩
  · obtain ⟨phis, body, t, hinsts, -, -⟩ := h.shaped e (by simp [hb])
    cases hi : e.insts with
    | nil => simp [hinsts] at hi
    | cons i rest => exact ⟨i, rest, rfl, h.entry_head e (by simp [hb]) i (by simp [hi])⟩
  · simp [Site.fill, ← hb]

theorem fence_grown (hacc : accepts writeFenceTraceWrapper []) {F : Function}
    (h : F.SSA accepts) {e : Block} {bs : List Block} (hb : F.blocks = e :: bs) :
    Function.Grown dl accepts F (F.prepend e bs fenceCallback) := by
  obtain ⟨hopen, hfill, hprepend⟩ := h.wellFormed.entry_site hb
  have hgrown := Site.grown_call (F := F) hopen (by rwa [hfill]) writeFenceTraceWrapper []
    (callbackTypes_fence dl) hacc (by simp)
  rw [hfill] at hgrown
  rw [hprepend]
  exact hgrown

theorem flush_grown (hacc : accepts writeFlushTraceWrapper [.int (dl.pointerSizeInBits 0)])
    {F : Function} (h : F.SSA accepts) {e : Block} {bs : List Block} (hb : F.blocks = e :: bs)
    {r : ℕ} {ty : Ty} {ps : List (ℕ × Ty)} (hps : F.params = (r, ty) :: ps)
    (hty : ty.isPointer = true ∨ ty = .int (dl.pointerSizeInBits 0)) :
    Function.Grown dl accepts F (F.prepend e bs (flushGroup dl F.freshReg r ty)) := by
  obtain ⟨hopen, hfill, hprepend⟩ := h.wellFormed.entry_site hb
  have hparam : ∀ p, F.Supplies p (.reg r ty) := fun p =>
    ⟨by simp [Operand.regs, Function.Available, hps], fun t ht => ht.params (r, ty) (by simp [hps])⟩
  rw [hprepend]
  unfold flushGroup
  split_ifs with hint
  · subst hint
    have hgrown := Site.grown_call (F := F) hopen (by rwa [hfill]) writeFlushTraceWrapper
      [.reg r _] (callbackTypes_flush dl) hacc (by simpa [hfill] using hparam _)
    rwa [hfill] at hgrown
  · have hgrown := Site.grown_cast_call (F := F) hopen (by rwa [hfill]) F.freshReg
      (.reg r ty) writeFlushTraceWrapper [] (hty.resolve_right hint)
      (by rw [hfill]; exact hparam _)
      (by rw [hfill]; exact fun hmem => absurd (Function.lt_freshReg hmem) (by simp))
      (callbackTypes_flush dl) hacc
    rw [hfill] at hgrown
    exact hgrown

/-! ## Modules -/

namespace Module

def signature? (M : Module) (n : Name) : Option (List Ty) :=
  match M.lookup n with
  | some F => some (F.params.map (·.2))
  | none => (M.decls.find? (·.1 == n)).map (·.2.params)

/-- The function is there, and the argument types are its own or those of the callback that the
call was made for: `getOrInsertFunction` gives a function of the type asked for, by a cast if need
be. After an ellipsis anything may follow. -/
def Accepts (ellipsis : Name → Bool) (M : Module) (n : Name) (tys : List Ty) : Prop :=
  ∃ sig, M.signature? n = some sig ∧
    (callbackTypes M.dataLayout n = some tys ∨ if ellipsis n then sig <+: tys else tys = sig)

structure SSA (ellipsis : Name → Bool) (M : Module) : Prop where
  names_nodup : (M.defs.map (·.name)).Nodup
  functions : ∀ F ∈ M.defs, F.SSA (M.Accepts ellipsis)

theorem signature?_update {M : Module} (hn : (M.defs.map (·.name)).Nodup) {F F' : Function}
    (hF : F ∈ M.defs) (hname : F'.name = F.name) (hparams : F'.params = F.params) (n : Name) :
    (M.update F').signature? n = M.signature? n := by
  unfold signature?
  rw [lookup_update]
  cases hl : M.lookup n with
  | none => rfl
  | some G =>
    simp only [Option.map_some]
    split_ifs with he
    · obtain rfl := List.inj_on_of_nodup_map hn (lookup_mem hl).1 hF (he.trans hname)
      rw [hparams]
    · rfl

theorem signature?_getOrInsertFunction {M : Module} {m : Name} {ty : FnTy} {n : Name}
    {sig : List Ty} (h : M.signature? n = some sig) :
    (M.getOrInsertFunction m ty).signature? n = some sig := by
  have hlookup : (M.getOrInsertFunction m ty).lookup n = M.lookup n := by
    simp only [lookup, (M.getOrInsertFunction_defs m ty).1]
  unfold signature? at h ⊢
  rw [hlookup]
  cases hl : M.lookup n with
  | some G => simpa [hl] using h
  | none =>
    simp only [hl, Option.map_eq_some_iff] at h ⊢
    obtain ⟨d, hd, hsig⟩ := h
    refine ⟨d, ?_, hsig⟩
    unfold getOrInsertFunction
    split_ifs
    · exact hd
    · simp [List.find?_append, hd]

theorem exists_signature_getOrInsertFunction (M : Module) (n : Name) (ty : FnTy) :
    ∃ sig, (M.getOrInsertFunction n ty).signature? n = some sig := by
  have hlookup : (M.getOrInsertFunction n ty).lookup n = M.lookup n := by
    simp only [lookup, (M.getOrInsertFunction_defs n ty).1]
  unfold signature?
  rw [hlookup]
  cases hl : M.lookup n with
  | some F => exact ⟨_, rfl⟩
  | none =>
    have hdecl : n ∈ (M.getOrInsertFunction n ty).decls.map (·.1) := by
      unfold getOrInsertFunction
      split_ifs with hknown
      · exact hknown.resolve_left (by simp [hl])
      · simp
    obtain ⟨d, hd, hname⟩ := List.mem_map.mp hdecl
    have hfound : ((M.getOrInsertFunction n ty).decls.find? (·.1 == n)).isSome = true := by
      rw [List.find?_isSome]
      exact ⟨d, hd, by simpa using hname⟩
    obtain ⟨d', hd'⟩ := Option.isSome_iff_exists.mp hfound
    exact ⟨d'.2.params, by simp [hd']⟩

theorem Accepts.getOrInsertFunction {ellipsis : Name → Bool} {M : Module} {m n : Name} {ty : FnTy}
    {tys : List Ty} (h : M.Accepts ellipsis n tys) :
    (M.getOrInsertFunction m ty).Accepts ellipsis n tys := by
  obtain ⟨sig, hsig, htys⟩ := h
  refine ⟨sig, signature?_getOrInsertFunction hsig, ?_⟩
  rwa [(M.getOrInsertFunction_defs m ty).2]

/-- A callback is accepted once it has been asked for. -/
theorem accepts_getOrInsertFunction {ellipsis : Name → Bool} (M : Module) {n : Name} (ty : FnTy)
    {tys : List Ty} (h : callbackTypes M.dataLayout n = some tys) :
    (M.getOrInsertFunction n ty).Accepts ellipsis n tys := by
  obtain ⟨sig, hsig⟩ := M.exists_signature_getOrInsertFunction n ty
  refine ⟨sig, hsig, .inl ?_⟩
  rwa [(M.getOrInsertFunction_defs n ty).2]

/-- New declarations do no harm. -/
theorem SSA.of_accepts {ellipsis : Name → Bool} {M M' : Module} (h : M.SSA ellipsis)
    (hd : M'.defs = M.defs) (hacc : ∀ n tys, M.Accepts ellipsis n tys → M'.Accepts ellipsis n tys) :
    M'.SSA ellipsis :=
  ⟨hd ▸ h.names_nodup, fun F hF => (h.functions F (hd ▸ hF)).mono hacc⟩

theorem SSA.update {ellipsis : Name → Bool} {M : Module} (h : M.SSA ellipsis) {F F' : Function}
    (hF : F ∈ M.defs) (hgrown : Function.Grown M.dataLayout (M.Accepts ellipsis) F F') :
    (M.update F').SSA ellipsis := by
  have hacc : ∀ n tys, M.Accepts ellipsis n tys → (M.update F').Accepts ellipsis n tys := by
    intro n tys hn
    unfold Accepts at hn ⊢
    rwa [signature?_update h.names_nodup hF hgrown.name hgrown.params]
  have hnames : (M.update F').defs.map (·.name) = M.defs.map (·.name) := by
    simp only [Module.update, List.map_map]
    refine List.map_congr_left fun G _ => ?_
    simp only [Function.comp_apply]
    split_ifs with he
    · exact he.symm
    · rfl
  refine ⟨hnames ▸ h.names_nodup, fun G hG => ?_⟩
  rcases mem_update hG with rfl | ⟨hG, -⟩
  · exact hgrown.ssa.mono hacc
  · exact (h.functions G hG).mono hacc

theorem SSA.wellFormed {ellipsis : Name → Bool} {M : Module} (h : M.SSA ellipsis) : M.WellFormed :=
  ⟨h.names_nodup, fun F hF => (h.functions F hF).wellFormed⟩

end Module

variable {ellipsis : Name → Bool}

theorem storeFlushCallbacks_accepts {M : Module} {n : Name} {tys : List Ty}
    (h : M.Accepts ellipsis n tys) : (storeFlushCallbacks M).Accepts ellipsis n tys :=
  h.getOrInsertFunction.getOrInsertFunction

theorem fenceFlushCallbacks_accepts {M : Module} {n : Name} {tys : List Ty}
    (h : M.Accepts ellipsis n tys) : (fenceFlushCallbacks M).Accepts ellipsis n tys :=
  h.getOrInsertFunction.getOrInsertFunction

theorem storeFlushCallbacks_store (M : Module) : (storeFlushCallbacks M).Accepts ellipsis
    writeStoreTraceWrapper [.int (M.dataLayout.pointerSizeInBits 0), .int 32] :=
  (M.accepts_getOrInsertFunction _ (callbackTypes_store _)).getOrInsertFunction

theorem fenceFlushCallbacks_fence (M : Module) :
    (fenceFlushCallbacks M).Accepts ellipsis writeFenceTraceWrapper [] :=
  (M.accepts_getOrInsertFunction _ (callbackTypes_fence _)).getOrInsertFunction

theorem fenceFlushCallbacks_flush (M : Module) : (fenceFlushCallbacks M).Accepts ellipsis
    writeFlushTraceWrapper [.int (M.dataLayout.pointerSizeInBits 0)] := by
  apply Module.accepts_getOrInsertFunction
  rw [initializeFenceCallbacks, (M.getOrInsertFunction_defs _ _).2]
  exact callbackTypes_flush _

/-- What the runs so far have made of a verified module. -/
structure Verified (ellipsis : Name → Bool) (M M₁ : Module) : Prop where
  ssa : M₁.SSA ellipsis
  defs : List.Forall₂ (fun F F' => F'.name = F.name ∧ ∃ pos, F.Embeds M.dataLayout F' pos)
    M.defs M₁.defs

theorem Verified.grow {M M₁ M₂ : Module} (h : Verified ellipsis M M₁) (hext : M.Extends M₁)
    (hd : M₂.defs = M₁.defs ∧ M₂.dataLayout = M₁.dataLayout)
    (hacc : ∀ n tys, M₁.Accepts ellipsis n tys → M₂.Accepts ellipsis n tys) {F F' : Function}
    (hF : F ∈ M₁.defs)
    (hgrown : F.SSA (M₂.Accepts ellipsis) →
      Function.Grown M₁.dataLayout (M₂.Accepts ellipsis) F F') :
    Verified ellipsis M (M₂.update F') := by
  have hssa₂ := h.ssa.of_accepts hd.1 hacc
  replace hgrown := hgrown ((h.ssa.functions F hF).mono hacc)
  rw [← hd.1] at hF
  refine ⟨hssa₂.update hF (by rwa [hd.2]), ?_⟩
  refine Module.forall₂_update (hd.1 ▸ h.defs) hssa₂.names_nodup hF hgrown.name ?_
    fun _ _ _ hG => hG
  rintro G ⟨hname, pos, hpos⟩
  obtain ⟨pos', hpos'⟩ := hgrown.embeds
  rw [hext.dataLayout] at hpos'
  exact ⟨hgrown.name.trans hname, _, hpos.trans hpos'⟩

theorem PassEffect.verified {M M₁ M₂ : Module} (hfl : FlushTakesAddress M) (hext : M.Extends M₁)
    {once once' : Once} {p : PassRun} (h : Verified ellipsis M M₁)
    (heff : PassEffect once M₁ p once' M₂) : Verified ellipsis M M₂ := by
  have hstores := storeFlushCallbacks_defs M₁
  have hfences := fenceFlushCallbacks_defs M₁
  cases heff with
  | unknown => exact h
  | wrapper => exact h
  | stores hF _ he =>
    exact h.grow hext hstores (fun _ _ => storeFlushCallbacks_accepts) hF
      fun hssa => instrumentBody_grown (storeFlushCallbacks_store M₁) hssa he
  | fence hF _ _ hb =>
    exact h.grow hext hfences (fun _ _ => fenceFlushCallbacks_accepts) hF
      fun hssa => fence_grown (fenceFlushCallbacks_fence M₁) hssa hb
  | flush hF _ hc _ hps hb =>
    obtain ⟨r, ty, ps, hps', hty⟩ := hfl.takesAddress hext hF hc
    obtain ⟨hp, -⟩ := List.cons.inj (hps.symm.trans hps')
    obtain ⟨rfl, rfl⟩ := Prod.mk.inj hp
    exact h.grow hext hfences (fun _ _ => fenceFlushCallbacks_accepts) hF
      fun hssa => flush_grown (fenceFlushCallbacks_flush M₁) hssa hb hps hty
  | neither => exact ⟨h.ssa.of_accepts hfences.1 fun _ _ => fenceFlushCallbacks_accepts,
      hfences.1 ▸ h.defs⟩

/-- However often the passes run and on which functions, what the verifier asks of the module it
asks of the result, and old instructions dominate each other as before. -/
theorem runPasses_ssa {M : Module} (hM : M.SSA ellipsis) (hfl : FlushTakesAddress M) (once : Once)
    (ps : List PassRun) :
    ∃ once' M', runPasses (once, M) ps = .ok (once', M') ∧ M'.SSA ellipsis ∧
      List.Forall₂ (fun F F' => F'.name = F.name ∧ ∃ pos, F.Embeds M.dataLayout F' pos)
        M.defs M'.defs := by
  obtain ⟨once', M', hrun, -, h⟩ := runPasses_induction hM.wellFormed ps (fun _ _ => hfl)
    (I := fun _ _ M₁ => Verified ellipsis M M₁) once
    ⟨hM, List.forall₂_same.mpr fun F _ => ⟨rfl, _, .refl F⟩⟩
    fun _ _ _ _ _ _ hext h heff => heff.verified hfl hext h
  exact ⟨once', M', hrun, h.ssa, h.defs⟩

namespace Driver

/-- A function of one block, all of whose uses are behind the definitions. -/
theorem ssa_of_block {accepts : Name → List Ty → Prop} {F : Function} {l : Label}
    {insts : List Inst} (hF : F.blocks = [⟨l, insts⟩]) (hwf : F.WellFormed)
    (hnodup : F.dsts.Nodup) (ty : ℕ → Ty) (hparams : ∀ p ∈ F.params, ty p.1 = p.2)
    (htyped : ∀ i ∈ insts, i.HasTy ty ∧ ∀ v ∈ i.operands, v.HasTy ty)
    (huses : ∀ q ∈ insts.zipIdx, ∀ v ∈ q.1.operands, ∀ r ∈ v.regs,
      r ∈ F.params.map (·.1) ∨ ∃ i' ∈ insts.take q.2, i'.isTerm = false ∧ r ∈ i'.dst)
    (hcalls : ∀ i ∈ insts, ∀ n tys, i.directCall = some (n, tys) → accepts n tys) :
    F.SSA accepts := by
  have hblock : ∀ j k i, F.inst? j k = some i → j = 0 ∧ insts[k]? = some i := by
    intro j k i hi
    obtain ⟨b, hb, hi⟩ := Option.bind_eq_some_iff.mp hi
    rw [hF, List.getElem?_singleton] at hb
    split_ifs at hb with hj
    obtain rfl := Option.some.inj hb
    exact ⟨hj, hi⟩
  have hinst : ∀ k, F.inst? 0 k = insts[k]? := fun k => by simp [Function.inst?, hF]
  have hhead : ∀ j k i, F.inst? j k = some i → i ∈ insts ∧ i.isPhi = false ∧ i.isEHPad = false := by
    intro j k i hi
    have hmem := List.mem_of_getElem? (hblock j k i hi).2
    exact ⟨hmem, hwf.entry_head ⟨l, insts⟩ (by simp [hF]) i hmem⟩
  refine ⟨hwf, hnodup, ⟨ty, hparams, fun j k i hi => htyped i (hhead j k i hi).1⟩, ?_, ?_, ?_, ?_⟩
  · intro j k i hi hpad
    simp [(hhead j k i hi).2.2] at hpad
  · intro j k i hi _ v hv r hr
    obtain ⟨rfl, hk⟩ := hblock j k i hi
    refine (huses (i, k) (List.mem_zipIdx_iff_getElem?.mpr hk) v hv r hr).imp_right ?_
    rintro ⟨i', hi', hterm, hdst⟩
    obtain ⟨k', hk'⟩ := List.mem_iff_getElem?.mp hi'
    rw [List.getElem?_take] at hk'
    split_ifs at hk' with hlt
    refine ⟨.inst 0 k', ⟨i', (hinst k').trans hk', hterm, hdst⟩, F.dominates_of_lt 0 hlt, ?_⟩
    intro heq
    simp only [Point.inst.injEq, true_and] at heq
    omega
  · intro j k d t incoming hi
    simpa [Inst.isPhi] using (hhead j k _ hi).2.1
  · exact fun j k i hi => hcalls i (hhead j k i hi).1

/-- Stores 7 through its argument and flushes it, with the pointer cast that the types ask for. -/
def persist : Function where
  name := "persist"
  params := [(0, .ptr (.int 64) 0)]
  nounwind := false
  blocks := [⟨0, [
    .store (.const (.int 64 7)) (.reg 0 (.ptr (.int 64) 0)),
    .op (some 1) (.other "bitcast") [.reg 0 (.ptr (.int 64) 0)],
    .call none (.fn "nova_flush_buffer") [.reg 1 (.ptr (.int 8) 0), .const (.int 32 8)],
    .term (.ret none)]⟩]

def persistent : Module := { program with defs := [flushBuffer, persist] }

theorem persist_wellFormed : persist.WellFormed := by
  refine ⟨by decide, by decide, by decide, ?_, by decide, by decide, ?_⟩
  · simp only [persist, List.mem_singleton, forall_eq]
    exact shaped_of_body [_, _, _] (by decide)
  · simp [persist, Operand.ty, Const.ty, Ty.pointee?]

theorem persistent_ssa : persistent.SSA fun _ => false := by
  refine ⟨by decide, ?_⟩
  simp only [persistent, List.mem_cons, List.not_mem_nil, or_false]
  rintro F (rfl | rfl)
  · exact ssa_of_block rfl (wellFormed.functions _ (by simp [program])) (by decide)
      (fun r => if r = 0 then .ptr (.int 8) 0 else .int 32) (by decide)
      (by simp [Inst.HasTy, Inst.operands, Callee.operands, Terminator.operands, Operand.HasTy])
      (by decide) (by simp [Inst.directCall])
  · refine ssa_of_block rfl persist_wellFormed (by decide)
      (fun r => if r = 0 then .ptr (.int 64) 0 else .ptr (.int 8) 0) (by decide)
      (by simp [Inst.HasTy, Inst.operands, Callee.operands, Terminator.operands, Operand.HasTy])
      (by decide) ?_
    simp only [List.mem_cons, List.not_mem_nil, or_false]
    rintro i (rfl | rfl | rfl | rfl) n tys hc
    all_goals simp only [Inst.directCall, reduceCtorEq, Option.some.injEq, Prod.mk.injEq] at hc
    obtain ⟨rfl, rfl⟩ := hc
    exact ⟨_, rfl, .inr rfl⟩

/-- Two rounds of both passes over that driver. -/
theorem persistent_verified : ∃ once' M', runPasses (⟨false, false⟩, persistent)
      [.storeFlush "persist", .fence "nova_flush_buffer", .storeFlush "persist",
        .fence "nova_flush_buffer"] = .ok (once', M') ∧
    (M'.SSA fun _ => false) ∧
    List.Forall₂ (fun F F' => F'.name = F.name ∧ ∃ pos, F.Embeds persistent.dataLayout F' pos)
      persistent.defs M'.defs := by
  refine runPasses_ssa persistent_ssa ?_ ⟨false, false⟩ _
  simp only [FlushTakesAddress, persistent, List.mem_cons, List.not_mem_nil, or_false]
  rintro F (rfl | rfl) h
  · exact ⟨_, _, _, rfl, .inl rfl⟩
  · exact absurd h (by decide)

end Driver

end Squint.IR
