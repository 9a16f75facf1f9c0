import Squint.IR.Legacy
import Squint.IR.Preservation
import Squint.IR.Verifier

/-! The older pass, too, leaves a module that the verifier accepts and that behaves as before,
however often it runs and on which functions. -/
namespace Squint.IR.Legacy

variable {dl : DataLayout} {t : Sites} {accepts : Name → List Ty → Prop}

/-! ## Callbacks at a site -/

section Sites

variable {s : Site} {F : Function} (hacc : ∀ n tys, callbackTypes dl n = some tys → accepts n tys)
  (h : (s.fill F []).SSA accepts)
include hacc h

theorem grown_announcement (hopen : s.Open) {fresh : ℕ} {v : Operand} {q : List Inst × Operand}
    {n : Name} (consts : List Const) (hsup : (s.fill F []).Supplies s.point v)
    (hfresh : fresh ∉ (s.fill F []).regs)
    (hty : callbackTypes dl n = some (.int (dl.pointerSizeInBits 0) :: consts.map (·.ty)))
    (hq : createPointerCast fresh v (.int (dl.pointerSizeInBits 0)) = .ok q) :
    Function.Grown dl accepts (s.fill F [])
      (s.fill F (q.1 ++ [.call none (.fn n) (q.2 :: consts.map .const)])) := by
  unfold createPointerCast at hq
  split_ifs at hq with heq hp
  · obtain rfl := Except.ok.inj hq
    have htys : callbackTypes dl n = some ((v :: consts.map Operand.const).map (·.ty)) := by
      have hconsts : (consts.map Operand.const).map (·.ty) = consts.map (·.ty) := by
        simp [Operand.ty]
      rw [List.map_cons, hconsts, heq, hty]
    apply Site.grown_call hopen h n _ htys (hacc _ _ htys)
    simpa [supplies_const] using hsup
  · have hcast := Site.grown_cast_call hopen h fresh v n consts hp hsup hfresh hty (hacc _ _ hty)
    cases v with
    | const c =>
      obtain rfl := Except.ok.inj hq
      exact hcast
    | reg r ty =>
      obtain rfl := Except.ok.inj hq
      exact hcast

theorem callback_grown {i : Inst} {rest new : List Inst} {fresh : ℕ} (hr : s.right = i :: rest)
    (hfresh : ∀ r ∈ (s.fill F []).regs, r < fresh) (hnew : callback dl t fresh i = .ok new) :
    Function.Grown dl accepts (s.fill F []) (s.fill F new) := by
  have hnot : fresh ∉ (s.fill F []).regs := fun hmem => absurd (hfresh fresh hmem) (by simp)
  cases isCallback_of_ok hnew with
  | fence ht =>
    exact Site.grown_call ⟨_, rest, hr, rfl, rfl⟩ h writeFenceTraceWrapper []
      (callbackTypes_fence dl) (hacc _ _ (callbackTypes_fence dl)) (by simp)
  | @store v p ty q hp hq =>
    have hsup := Site.supplies_operand (F := F) h hr rfl (v := p) (by simp [Inst.operands])
    exact grown_announcement hacc h ⟨_, rest, hr, rfl, rfl⟩
      [.int 32 (toInt32 (dl.typeStoreSize ty))] hsup hnot (callbackTypes_store dl) hq
  | @flush d c a args q hc hq =>
    have hsup := Site.supplies_operand (F := F) h hr rfl (v := a) (by simp [Inst.operands])
    exact grown_announcement hacc h ⟨_, rest, hr, rfl, rfl⟩ [] hsup hnot (callbackTypes_flush dl) hq
  | none => exact .refl h

end Sites

/-! ## Bodies -/

theorem callback_regs {fresh : ℕ} {i : Inst} {new : List Inst}
    (hnew : callback dl t fresh i = .ok new) :
    ∀ r ∈ new.flatMap Inst.regs, r ∈ i.regs ∨ r < fresh + new.length := by
  have hcast : ∀ {v : Operand} {q : List Inst × Operand} {n : Name} {args : List Operand},
      args.flatMap Operand.regs = [] →
      createPointerCast fresh v (.int (dl.pointerSizeInBits 0)) = .ok q →
      ∀ r ∈ (q.1 ++ [Inst.call none (.fn n) (q.2 :: args)]).flatMap Inst.regs,
        r ∈ v.regs ∨ r < fresh + (q.1 ++ [Inst.call none (.fn n) (q.2 :: args)]).length := by
    intro v q n args hargs hq r hr
    obtain ⟨hnil, hsub⟩ | ⟨r', ty, rfl, -, rfl⟩ := createPointerCast_cases hq
    · left
      apply hsub
      simpa [hnil, Inst.regs, Callee.regs, hargs] using hr
    · simp only [List.cons_append, List.nil_append, List.flatMap_cons, List.flatMap_nil, Inst.regs,
        Callee.regs, Operand.regs, hargs, List.mem_cons, List.not_mem_nil, or_false,
        List.append_nil, Option.toList_none] at hr
      obtain rfl | rfl | rfl := hr
      · exact Or.inr (by simp)
      · exact Or.inl (by simp [Operand.regs])
      · exact Or.inr (by simp)
  intro r hr
  cases isCallback_of_ok hnew with
  | fence ht => simp [fenceCallback, Inst.regs, Callee.regs] at hr
  | @store v p ty q hp hq =>
    exact (hcast (by simp [Operand.regs]) hq r hr).imp_left fun hv => by simp [Inst.regs, hv]
  | @flush d c a args q hc hq =>
    exact (hcast rfl hq r hr).imp_left fun hv => by simp [Inst.regs, hv]
  | none => simp at hr

theorem instrumentInsts_grown (hacc : ∀ n tys, callbackTypes dl n = some tys → accepts n tys)
    {F : Function} {before after : List Block} {label : Label} (left : List Inst)
    {rest l' : List Inst} {c c' : Cursor}
    (hregs : ∀ r ∈ (Site.fill ⟨before, label, left, rest, after⟩ F []).regs, r < c.fresh)
    (h : (Site.fill ⟨before, label, left, rest, after⟩ F []).SSA accepts)
    (hrun : instrumentInsts dl t c rest = .ok (l', c')) :
    Function.Grown dl accepts (Site.fill ⟨before, label, left, rest, after⟩ F [])
        (Site.fill ⟨before, label, left, l', after⟩ F []) ∧
      ∀ r ∈ (Site.fill ⟨before, label, left, l', after⟩ F []).regs, r < c'.fresh := by
  have hshift : ∀ left i new l, Site.fill ⟨before, label, left ++ new ++ [i], l, after⟩ F [] =
      Site.fill ⟨before, label, left, i :: l, after⟩ F new := fun left i new l => by
    simp [Site.fill]
  induction rest generalizing left c l' with
  | nil =>
    obtain ⟨rfl, rfl⟩ := Prod.mk.inj (Except.ok.inj hrun)
    exact ⟨.refl h, hregs⟩
  | cons i rest ih =>
    obtain ⟨new, hnew, hrun⟩ := bind_eq_ok hrun
    obtain ⟨q, hq, hrun⟩ := bind_eq_ok hrun
    obtain ⟨rfl, rfl⟩ := Prod.mk.inj (Except.ok.inj hrun)
    have hgroup := callback_grown (s := ⟨before, label, left, i :: rest, after⟩) hacc h rfl hregs
      hnew
    have hbound : ∀ r ∈ (Site.fill ⟨before, label, left, i :: rest, after⟩ F new).regs,
        r < c.fresh + new.length := by
      intro r hr
      have hold : ∀ r ∈ (Site.fill ⟨before, label, left, i :: rest, after⟩ F []).regs,
          r < c.fresh + new.length := fun r hr => Nat.lt_add_right _ (hregs r hr)
      obtain hr | hr := Site.mem_regs_fill.mp hr
      · exact hold r hr
      · obtain hr | hr := callback_regs hnew r hr
        · have hinst : (Site.fill ⟨before, label, left, i :: rest, after⟩ F []).inst?
              (Site.block ⟨before, label, left, i :: rest, after⟩)
              (Site.index ⟨before, label, left, i :: rest, after⟩) = some i := by
            simp [Site.inst?_fill_self, Site.index]
          exact hold r (Function.mem_regs_of_inst? hinst hr)
        · exact hr
    obtain ⟨hgrown, hregs'⟩ := ih (left ++ new ++ [i]) (c := ⟨c.fresh + new.length, _⟩)
      (by rw [hshift]; exact hbound) (by rw [hshift]; exact hgroup.ssa) hq
    rw [hshift, hshift] at hgrown
    rw [hshift] at hregs'
    have hassoc : Site.fill ⟨before, label, left, i :: q.1, after⟩ F new =
        Site.fill ⟨before, label, left, new ++ i :: q.1, after⟩ F [] := by
      simp [Site.fill]
    rw [hassoc] at hgrown hregs'
    exact ⟨hgroup.trans hgrown, hregs'⟩

theorem instrumentBlocks_grown (hacc : ∀ n tys, callbackTypes dl n = some tys → accepts n tys)
    {F : Function} (done : List Block) {bs bs' : List Block} {c c' : Cursor}
    (hregs : ∀ r ∈ Function.regs { F with blocks := done ++ bs }, r < c.fresh)
    (h : Function.SSA accepts { F with blocks := done ++ bs })
    (hrun : instrumentBlocks dl t c bs = .ok (bs', c')) :
    Function.Grown dl accepts { F with blocks := done ++ bs } { F with blocks := done ++ bs' } := by
  induction bs generalizing done c bs' with
  | nil =>
    obtain ⟨rfl, rfl⟩ := Prod.mk.inj (Except.ok.inj hrun)
    exact .refl h
  | cons b bs ih =>
    obtain ⟨q, hq, hrun⟩ := bind_eq_ok hrun
    obtain ⟨q', hq', hrun⟩ := bind_eq_ok hrun
    obtain ⟨rfl, rfl⟩ := Prod.mk.inj (Except.ok.inj hrun)
    have hfill : ∀ l, Site.fill ⟨done, b.label, [], l, bs⟩ F [] =
        { F with blocks := done ++ [⟨b.label, l⟩] ++ bs } := fun l => by simp [Site.fill]
    have hstart : ({ F with blocks := done ++ b :: bs } : Function) =
        { F with blocks := done ++ [⟨b.label, b.insts⟩] ++ bs } := by simp
    rw [hstart, ← hfill] at hregs h ⊢
    obtain ⟨hgrown, hregs'⟩ := instrumentInsts_grown hacc [] hregs h hq
    have hssa := hgrown.ssa
    rw [hfill q.1] at hregs' hssa
    have hrest := ih _ hregs' hssa hq'
    rw [← hfill q.1] at hrest
    have htrans := hgrown.trans hrest
    simpa using htrans

theorem instrumentBody_grown (hacc : ∀ n tys, callbackTypes dl n = some tys → accepts n tys)
    {F F' : Function} {changed : Bool} (h : F.SSA accepts)
    (hrun : instrumentBody dl t F = .ok (F', changed)) : Function.Grown dl accepts F F' := by
  obtain ⟨q, hq, hrun⟩ := bind_eq_ok hrun
  obtain ⟨rfl, -⟩ := Prod.mk.inj (Except.ok.inj hrun)
  exact instrumentBlocks_grown hacc [] (fun _ => Function.lt_freshReg) h hq

/-! ## Modules -/

section Modules

variable {ellipsis : Name → Bool} {M M₁ M₂ : Module}

theorem callbacks_accepts {n : Name} {tys : List Ty} (h : M.Accepts ellipsis n tys) :
    (callbacks M).Accepts ellipsis n tys :=
  h.getOrInsertFunction.getOrInsertFunction.getOrInsertFunction

theorem callbacks_accepts_callback {n : Name} {tys : List Ty}
    (h : callbackTypes M.dataLayout n = some tys) : (callbacks M).Accepts ellipsis n tys := by
  have hlayout (m : Name) (ty : FnTy) (M : Module) := (M.getOrInsertFunction_defs m ty).2
  unfold callbackTypes at h
  split_ifs at h with hfence hflush hstore
  · subst hfence
    apply (Module.accepts_getOrInsertFunction _ _ _).getOrInsertFunction
    rw [initializeStoreCallbacks, hlayout, callbackTypes_fence, h]
  · subst hflush
    apply Module.accepts_getOrInsertFunction
    rw [initializeFenceCallbacks, initializeStoreCallbacks, hlayout, hlayout, callbackTypes_flush,
      h]
  · subst hstore
    apply (M.accepts_getOrInsertFunction _ _).getOrInsertFunction.getOrInsertFunction
    rw [callbackTypes_store, h]

theorem runOnFunction_verified (hn : (M.defs.map (·.name)).Nodup) (hext : M.Extends M₁)
    (h : Verified ellipsis M M₁) {F : Function} (hF : F ∈ M₁.defs) {changed : Bool}
    (hrun : runOnFunction t M₁ F = .ok (M₂, changed)) :
    M.Extends M₂ ∧ Verified ellipsis M M₂ := by
  unfold runOnFunction at hrun
  split_ifs at hrun with hw
  · obtain ⟨rfl, -⟩ := Prod.mk.inj (Except.ok.inj hrun)
    exact ⟨hext, h⟩
  · obtain ⟨q, hq, hrun⟩ := bind_eq_ok hrun
    obtain ⟨rfl, -⟩ := Prod.mk.inj (Except.ok.inj hrun)
    have hdefs := callbacks_defs M₁
    have hwoven := instrumentBody_woven (Bool.eq_false_iff.mpr hw) hq
    constructor
    · apply (hext.of_defs hdefs.1 hdefs.2).update hn
      · rwa [hdefs.1]
      · exact hwoven.extends
    · exact h.grow hext hdefs (fun _ _ => callbacks_accepts) hF
        fun hssa => instrumentBody_grown (fun _ _ => callbacks_accepts_callback) hssa hq

theorem runOn_verified (hn : (M.defs.map (·.name)).Nodup) {vs : List Name} (hext : M.Extends M₁)
    (h : Verified ellipsis M M₁) (hrun : runOn t M₁ vs = .ok M₂) :
    M.Extends M₂ ∧ Verified ellipsis M M₂ := by
  induction vs generalizing M₁ with
  | nil =>
    obtain rfl := Except.ok.inj hrun
    exact ⟨hext, h⟩
  | cons f vs ih =>
    unfold runOn at hrun
    split at hrun
    · exact ih hext h hrun
    · rename_i F hl
      obtain ⟨q, hq, hrun⟩ := bind_eq_ok hrun
      obtain ⟨hext', h'⟩ := runOnFunction_verified hn hext h (Module.lookup_mem hl).1 hq
      exact ih hext' h' hrun

/-- Whatever functions the pass visits, in whichever order and how often: if LLVM does not stop it,
what the verifier asks of the module it asks of the result, old instructions dominate each other as
before, and every function behaves as before. -/
theorem runOn_preserves {W : Type} (hM : M.SSA ellipsis) {vs : List Name}
    (hrun : runOn sites M vs = .ok M₂) :
    M₂.SSA ellipsis ∧
      List.Forall₂ (fun F F' => F'.name = F.name ∧ ∃ pos, F.Embeds M.dataLayout F' pos)
        M.defs M₂.defs ∧
      ∀ (E : Env W) (Agree : W → W → Prop), Respects E Agree → Unobserved E M₂ Agree →
        ∀ f F, M.lookup f = some F → ∃ F', M₂.lookup f = some F' ∧
          ∀ args w, SameBehaviour E M M₂ F F' args w := by
  have hstart : Verified ellipsis M M :=
    ⟨hM, List.forall₂_same.mpr fun F _ => ⟨rfl, _, .refl F⟩⟩
  obtain ⟨hext, h⟩ := runOn_verified hM.names_nodup (.refl M) hstart hrun
  refine ⟨h.ssa, h.defs, fun E Agree hE hW f F hF => ?_⟩
  have hlookup := hext.lookup_sim f
  rw [hF] at hlookup
  generalize hF' : M₂.lookup f = o at hlookup
  cases hlookup with
  | some hFF' => exact ⟨_, rfl, hext.sameBehaviour hE hW hFF'⟩

end Modules

namespace Driver

open IR.Driver

/-- Stores 7 through its argument, flushes the region and fences. -/
def sync : Function where
  name := "pmem_sync"
  params := [(0, .ptr (.int 64) 0)]
  nounwind := false
  blocks := [⟨0, [
    .store (.const (.int 64 7)) (.reg 0 (.ptr (.int 64) 0)),
    .call none (.fn "nvdimm_flush") [.reg 0 (.ptr (.int 64) 0)],
    .op none .fence [],
    .term (.ret none)]⟩]

def syncing : Module where
  dataLayout := program.dataLayout
  decls := [("nvdimm_flush", ⟨.void, [.ptr (.int 64) 0]⟩)]
  defs := [sync]

theorem syncing_ssa : syncing.SSA fun _ => false := by
  refine ⟨by decide, ?_⟩
  simp only [syncing, List.mem_singleton, forall_eq]
  have hwf : sync.WellFormed := by
    refine ⟨by decide, by decide, by decide, ?_, by decide, by decide, ?_⟩
    · simp only [sync, List.mem_singleton, forall_eq]
      exact shaped_of_body [_, _, _] (by decide)
    · simp [sync, Operand.ty, Const.ty, Ty.pointee?]
  refine ssa_of_block rfl hwf (by decide) (fun _ => .ptr (.int 64) 0) (by decide)
    (by simp [Inst.HasTy, Inst.operands, Callee.operands, Terminator.operands, Operand.HasTy])
    (by decide) ?_
  simp only [List.mem_cons, List.not_mem_nil, or_false]
  rintro i (rfl | rfl | rfl | rfl) n tys hc
  all_goals simp only [Inst.directCall, reduceCtorEq, Option.some.injEq, Prod.mk.injEq] at hc
  obtain ⟨rfl, rfl⟩ := hc
  exact ⟨_, rfl, .inr rfl⟩

/-- Two visits: everything is announced twice. -/
theorem syncing_preserved : ∃ M₂ F', runOn sites syncing ["pmem_sync", "pmem_sync"] = .ok M₂ ∧
    (M₂.SSA fun _ => false) ∧
    List.Forall₂ (fun F F' => F'.name = F.name ∧ ∃ pos, F.Embeds syncing.dataLayout F' pos)
      syncing.defs M₂.defs ∧
    M₂.lookup "pmem_sync" = some F' ∧
    ∀ args w, SameBehaviour machine syncing M₂ sync F' args w := by
  have hok : (runOn sites syncing ["pmem_sync", "pmem_sync"]).isOk = true := by decide +kernel
  cases hrun : runOn sites syncing ["pmem_sync", "pmem_sync"] with
  | error e => simp [hrun] at hok
  | ok M₂ =>
    obtain ⟨hssa, hdefs, hsame⟩ := runOn_preserves syncing_ssa hrun
    have hnames : ∀ n ∈ M₂.defs.map (·.name), isWrapper n = false := by
      intro n hn
      obtain ⟨F', hF', rfl⟩ := List.mem_map.mp hn
      obtain ⟨F, hF, hname, -⟩ := exists_left_of_forall₂ hdefs hF'
      rw [hname, List.mem_singleton.mp hF]
      decide
    obtain ⟨F', hF', hbehaves⟩ := hsame machine Eq (.eq machine) (machine_unobserved hnames)
      "pmem_sync" sync (by decide)
    exact ⟨M₂, F', rfl, hssa, hdefs, hF', hbehaves⟩

end Driver

end Squint.IR.Legacy
