import Squint.IR.Legacy
import Squint.IR.Marks

/-! When the passes ask LLVM for something that is not there. Both pick functions or calls by a part
of a name, and then take for granted that there is a first argument and that it is an address. -/
namespace Squint.IR

namespace Legacy

variable {dl : DataLayout} {t : Sites}

theorem address_of_createPointerCast {fresh w : ℕ} {v : Operand} {q : List Inst × Operand}
    (h : createPointerCast fresh v (.int w) = .ok q) : v.ty.isPointer = true ∨ v.ty = .int w := by
  unfold createPointerCast at h
  split_ifs at h with heq hp
  · exact .inr heq
  · exact .inl hp

theorem flushSiteTyped_of_callback {fresh : ℕ} {i : Inst} {new : List Inst}
    (h : callback dl t fresh i = .ok new) : FlushSiteTyped dl t i := by
  intro d c args hi hc
  cases isCallback_of_ok h with
  | fence => cases hi
  | store => cases hi
  | flush _ hq =>
    obtain ⟨-, -, rfl⟩ := Inst.call.inj hi
    exact ⟨_, _, rfl, address_of_createPointerCast hq⟩
  | none _ _ hcall => exact absurd hc (hcall d c args hi)

theorem Woven.flushSiteTyped {n : ℕ} {l l' : List Inst} (h : Woven dl t n l l') :
    ∀ i ∈ l, FlushSiteTyped dl t i := by
  induction h with
  | nil => simp
  | cons _ hnew _ ih =>
    intro j hj
    rcases List.mem_cons.mp hj with rfl | hj
    · exact flushSiteTyped_of_callback hnew
    · exact ih j hj

/-- The pass can be run on the function: its calls of flush functions pass addresses. -/
def CallsTyped (dl : DataLayout) (t : Sites) (F : Function) : Prop :=
  isWrapper F.name = false → ∀ b ∈ F.blocks, ∀ i ∈ b.insts, FlushSiteTyped dl t i

theorem runOnFunction_isOk_iff {M : Module} {F : Function}
    (hstores : ∀ b ∈ F.blocks, StoresTyped b.insts) :
    (runOnFunction t M F).isOk = true ↔ CallsTyped M.dataLayout t F := by
  constructor
  · intro h hw b hb
    obtain ⟨q, hq⟩ : ∃ q, instrumentBody M.dataLayout t F = .ok q := by
      cases hbody : instrumentBody M.dataLayout t F with
      | ok q => exact ⟨q, rfl⟩
      | error e =>
        simp [runOnFunction, instrumentedFunction, hw, hbody, bind, Except.bind] at h
    obtain ⟨r, hr, -⟩ := bind_eq_ok hq
    have hbs := instrumentBlocks_woven hr
    obtain ⟨b', -, hwoven⟩ := exists_right_of_forall₂ hbs hb
    exact hwoven.2.flushSiteTyped
  · intro h
    unfold runOnFunction
    split_ifs with hw
    · rfl
    · have hw' : isWrapper F.name = false := Bool.eq_false_iff.mpr hw
      obtain ⟨F', changed, he⟩ := instrumentBody_ok fun b hb => ⟨hstores b hb, h hw' b hb⟩
      simp only [he, bind, Except.bind]
      rfl

theorem flushSiteTyped_of_silent {n : ℕ} {i : Inst} (hi : Silent n i) :
    FlushSiteTyped dl sites i := by
  rintro d c args rfl hc
  unfold Silent at hi
  split at hi
  · rename_i heq
    cases heq
  · rename_i heq
    obtain ⟨-, rfl, -⟩ := Inst.call.inj heq
    exact absurd hc (not_contains_of_isWrapper hi)
  · exact hi.elim

theorem callsTyped_iff_of_extends {F F' : Function} (h : F.Extends F') :
    CallsTyped dl sites F' ↔ CallsTyped dl sites F := by
  unfold CallsTyped
  rw [h.name]
  constructor
  · intro hF' hw b hb i hi
    obtain ⟨b', hb', hsub⟩ := h.exists_block hb
    exact hF' hw b' hb' i (hsub hi)
  · intro hF hw b hb i hi
    rcases h.mem_or_silent hb hi with ⟨b₀, hb₀, hi⟩ | hi
    · exact hF hw b₀ hb₀ i hi
    · exact flushSiteTyped_of_silent hi

theorem runOnFunction_extends {M M₁ M₂ : Module} {F : Function} {changed : Bool}
    (hext : M.Extends M₁) (hn : (M.defs.map (·.name)).Nodup) (hF : F ∈ M₁.defs)
    (hrun : runOnFunction t M₁ F = .ok (M₂, changed)) : M.Extends M₂ := by
  unfold runOnFunction at hrun
  split_ifs at hrun with hw
  · obtain ⟨rfl, -⟩ := Prod.mk.inj (Except.ok.inj hrun)
    exact hext
  · obtain ⟨q, hq, hrun⟩ := bind_eq_ok hrun
    obtain ⟨rfl, -⟩ := Prod.mk.inj (Except.ok.inj hrun)
    obtain ⟨hd, hl⟩ := callbacks_defs M₁
    have hwoven := instrumentBody_woven (Bool.eq_false_iff.mpr hw) hq
    exact (hext.of_defs hd hl).update hn (hd ▸ hF) hwoven.extends

/-- A run of the legacy pass over any functions fails exactly if a call of a flush function in one
of them passes no address. -/
theorem runOn_isOk_iff {M M₁ : Module} (hM : M.WellFormed) (hext : M.Extends M₁) (vs : List Name) :
    (runOn sites M₁ vs).isOk = true ↔
      ∀ F ∈ M.defs, F.name ∈ vs → CallsTyped M.dataLayout sites F := by
  induction vs generalizing M₁ with
  | nil => exact iff_of_true rfl (by simp)
  | cons f vs ih =>
    cases hl : M₁.lookup f with
    | none =>
      have hne : ∀ F ∈ M.defs, F.name ≠ f := fun F =>
        Module.lookup_eq_none (hext.lookup_eq_none hl)
      have hmem : ∀ F ∈ M.defs, (F.name ∈ f :: vs ↔ F.name ∈ vs) := fun F hF => by
        simp [hne F hF]
      rw [runOn, hl]
      simp only [ih hext]
      exact forall₂_congr fun F hF => by rw [hmem F hF]
    | some F₁ =>
      obtain ⟨hF₁, rfl⟩ := Module.lookup_mem hl
      obtain ⟨F₀, hF₀, hF₀F₁⟩ := hext.exists_base hF₁
      have hone : (runOnFunction sites M₁ F₁).isOk = true ↔ CallsTyped M.dataLayout sites F₀ := by
        rw [runOnFunction_isOk_iff (hF₀F₁.storesTyped (hM.functions F₀ hF₀)), hext.dataLayout,
          callsTyped_iff_of_extends hF₀F₁]
      cases hr : runOnFunction sites M₁ F₁ with
      | error e =>
        refine iff_of_false (by simp [runOn, hl, hr, bind, Except.bind]) fun h => ?_
        have := hone.mpr (h F₀ hF₀ (by simp [hF₀F₁.name]))
        simp [hr] at this
      | ok q =>
        have hF₀typed := hone.mp (by rw [hr]; rfl)
        have hrest := ih (runOnFunction_extends hext hM.names_nodup hF₁ hr)
        have hrun : runOn sites M₁ (F₁.name :: vs) = runOn sites q.1 vs := by
          simp [runOn, hl, hr, bind, Except.bind]
        rw [hrun, hrest]
        constructor
        · intro h F hF hmem
          rcases List.mem_cons.mp hmem with heq | hmem
          · obtain rfl := List.inj_on_of_nodup_map hM.names_nodup hF hF₀ (heq.trans hF₀F₁.name)
            exact hF₀typed
          · exact h F hF hmem
        · exact fun h F hF hmem => h F hF (List.mem_cons_of_mem _ hmem)

end Legacy

/-- When the passes stay within what LLVM allows. The insertion point of the entry block is always
there, and so are the pointers of stores. A schedule of the plugin's passes fails exactly if the
function that gets the flush callback does not take an address first, and a run of the legacy pass
exactly if a call whose callee's name contains the flush pattern does not pass one first. -/
theorem passes_isOk_iff {M : Module} (hM : M.WellFormed) :
    (∀ once ps, (runPasses (once, M) ps).isOk = true ↔
      ∀ F ∈ M.defs, (marks once M ps).flush = some F.name → TakesAddress M.dataLayout F) ∧
    ∀ vs, (Legacy.runOn Legacy.sites M vs).isOk = true ↔
      ∀ F ∈ M.defs, F.name ∈ vs → Legacy.CallsTyped M.dataLayout Legacy.sites F :=
  ⟨runPasses_isOk_iff hM, Legacy.runOn_isOk_iff hM (.refl M)⟩

def Checked.violation? {α : Type} : Checked α → Option Violation
  | .ok _ => none
  | .error v => some v

namespace Driver

/-- A flush function that passes its address on to another one. -/
def relay : Module :=
  callingModule "nova_flush_buffer" [(0, .ptr (.int 8) 0)] (.fn "nvdimm_flush")
    [.reg 0 (.ptr (.int 8) 0)]

theorem relay_isOk :
    (runPasses (⟨false, false⟩, relay)
      [.storeFlush "nova_flush_buffer", .fence "nova_flush_buffer"]).isOk = true ∧
    (Legacy.runOn Legacy.sites relay ["nova_flush_buffer"]).isOk = true := by
  have hrelay : relay.WellFormed := callingModule_wellFormed (by decide)
  have h := passes_isOk_iff hrelay
  refine ⟨(h.1 _ _).mpr ?_, (h.2 _).mpr ?_⟩
  · simp only [relay, callingModule, List.mem_singleton, forall_eq]
    exact fun _ => ⟨_, _, _, rfl, .inl rfl⟩
  · simp only [relay, callingModule, List.mem_singleton, forall_eq, Legacy.CallsTyped, calling]
    rintro _ _ i hi d c args rfl hc
    simp only [List.mem_cons, List.not_mem_nil, or_false, Inst.call.injEq, reduceCtorEq] at hi
    obtain ⟨-, -, rfl⟩ := hi
    exact ⟨_, _, rfl, .inl rfl⟩

/-- A flush function without an argument and one that takes a number, and calls of flush functions,
one of them through a pointer, that pass no argument and a number. -/
theorem passes_violate :
    (callingModule "nova_flush_buffer_all" [] (.asm 0) []).WellFormed ∧
    (runPasses (⟨false, false⟩, callingModule "nova_flush_buffer_all" [] (.asm 0) [])
      [.fence "nova_flush_buffer_all"]).violation? = some .argument ∧
    (callingModule "nova_flush_buffer_nth" [(0, .int 32)] (.asm 0) []).WellFormed ∧
    (runPasses (⟨false, false⟩, callingModule "nova_flush_buffer_nth" [(0, .int 32)] (.asm 0) [])
      [.fence "nova_flush_buffer_nth"]).violation? = some .pointerCast ∧
    (callingModule "drain" [] (.fn "nvdimm_flush_all") []).WellFormed ∧
    (Legacy.runOn Legacy.sites (callingModule "drain" [] (.fn "nvdimm_flush_all") [])
      ["drain"]).violation? = some .argument ∧
    (callingModule "drain" [(0, .ptr (.named "void (i32)") 0)]
      (.value (.reg 0 (.ptr (.named "void (i32)") 0)) "nvdimm_flush_fn")
      [.const (.int 32 4)]).WellFormed ∧
    (Legacy.runOn Legacy.sites (callingModule "drain" [(0, .ptr (.named "void (i32)") 0)]
      (.value (.reg 0 (.ptr (.named "void (i32)") 0)) "nvdimm_flush_fn") [.const (.int 32 4)])
      ["drain"]).violation? = some .pointerCast :=
  ⟨callingModule_wellFormed (by decide), by decide +kernel, callingModule_wellFormed (by decide),
    by decide +kernel, callingModule_wellFormed (by decide), by decide +kernel,
    callingModule_wellFormed (by decide), by decide +kernel⟩

end Driver

end Squint.IR
