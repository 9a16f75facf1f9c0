import Squint.IR.Declarations
import Squint.IR.Dressing
import Squint.IR.Marks

/-! The two passes commute. What a schedule makes of a module is told from the functions the store
pass has been on and from the visits of the fence pass, in their order; how the two interleave shows
in the registers of the casts alone. -/
namespace Squint.IR

/-! ## Declarations -/

/-- What a run of a pass on a module of these functions asks for. -/
def PassRun.requests (M : Module) : PassRun → List (Name × FnTy)
  | .storeFlush f =>
    if (M.lookup f).isSome = true ∧ isWrapper f = false then storeFlushRequests M else []
  | .fence f => if (M.lookup f).isSome = true then fenceFlushRequests M else []

section
variable {M : Module}

theorem PassRun.requests_nodup (p : PassRun) : ((p.requests M).map (·.1)).Nodup := by
  cases p with
  | storeFlush f =>
    simp only [PassRun.requests]
    split_ifs
    · exact show [writeStoreTraceWrapper, writeFlushTraceWrapper].Nodup by decide
    · exact List.nodup_nil
  | fence f =>
    simp only [PassRun.requests]
    split_ifs
    · exact show [writeFenceTraceWrapper, writeFlushTraceWrapper].Nodup by decide
    · exact List.nodup_nil

def wrapperRequests (M : Module) : List (Name × FnTy) :=
  [(writeFenceTraceWrapper, ⟨.void, []⟩), (writeFlushTraceWrapper, ⟨.void, [getIntPtrTy M]⟩),
    (writeStoreTraceWrapper, ⟨.void, [getIntPtrTy M, .int 32]⟩)]

theorem PassRun.requests_subset (p : PassRun) : p.requests M ⊆ wrapperRequests M := by
  intro x hx
  cases p with
  | storeFlush f =>
    simp only [PassRun.requests] at hx
    split_ifs at hx
    · simp only [storeFlushRequests, wrapperRequests, List.mem_cons, List.not_mem_nil,
        or_false] at hx ⊢
      tauto
    · simp at hx
  | fence f =>
    simp only [PassRun.requests] at hx
    split_ifs at hx
    · simp only [fenceFlushRequests, wrapperRequests, List.mem_cons, List.not_mem_nil,
        or_false] at hx ⊢
      tauto
    · simp at hx

theorem PassRun.requests_inj {p q : PassRun} {x y : Name × FnTy} (hx : x ∈ p.requests M)
    (hy : y ∈ q.requests M) (h : x.1 = y.1) : x = y := by
  have hnodup : ((wrapperRequests M).map (·.1)).Nodup :=
    show [writeFenceTraceWrapper, writeFlushTraceWrapper, writeStoreTraceWrapper].Nodup by decide
  exact List.inj_on_of_nodup_map hnodup (p.requests_subset hx) (q.requests_subset hy) h

theorem PassEffect.decls_eq {M₁ M₂ : Module} (hext : M.Extends M₁) {once once' : Once}
    {p : PassRun} (heff : PassEffect once M₁ p once' M₂) :
    M₂.decls = (M₁.declareAll (p.requests M)).decls := by
  have hstore : storeFlushRequests M₁ = storeFlushRequests M := by
    simp only [storeFlushRequests, getIntPtrTy, hext.dataLayout]
  have hfence : fenceFlushRequests M₁ = fenceFlushRequests M := by
    simp only [fenceFlushRequests, getIntPtrTy, hext.dataLayout]
  have hvisit : ∀ {F : Function}, F ∈ M₁.defs →
      (fenceFlushCallbacks M₁).decls =
        (M₁.declareAll (PassRun.requests M (.fence F.name))).decls := by
    intro F hF
    rw [fenceFlushCallbacks_eq, hfence, PassRun.requests, if_pos (hext.isSome_lookup_of_mem hF)]
  cases heff with
  | unknown hl =>
    have hnone := hext.lookup_eq_none hl
    cases p with
    | storeFlush f => simp [PassRun.requests, show M.lookup f = none from hnone, Module.declareAll]
    | fence f => simp [PassRun.requests, show M.lookup f = none from hnone, Module.declareAll]
  | wrapper hw => simp [PassRun.requests, hw, Module.declareAll]
  | stores hF hw =>
    show (storeFlushCallbacks M₁).decls = _
    rw [storeFlushCallbacks_eq, hstore, PassRun.requests,
      if_pos ⟨hext.isSome_lookup_of_mem hF, hw⟩]
  | fence hF => exact hvisit hF
  | flush hF => exact hvisit hF
  | neither hF => exact hvisit hF

end

/-! ## What a schedule has done -/

/-- `G'` is what the runs `done` have made of the function `G` of `M`. -/
structure FunctionAfter (M : Module) (k : Marks) (done : List PassRun) (G G' : Function) :
    Prop where
  mem : G ∈ M.defs
  base : G.Extends G'
  dressed : isWrapper G.name = false →
    Dressed M.dataLayout (decide (k.fence = some G.name)) (decide (k.flush = some G.name))
      (decide (.storeFlush G.name ∈ done)) G G'

/-- `M₁` is what the runs `done` have made of `M`. -/
structure Scheduled (once : Once) (M : Module) (done : List PassRun) (once₁ : Once)
    (M₁ : Module) : Prop where
  flags : once₁ = (marks once M done).once
  functions : List.Forall₂ (FunctionAfter M (marks once M done) done) M.defs M₁.defs
  decls : ∀ x, x ∈ M₁.decls ↔
    x ∈ M.decls ∨ ¬ M.Present x.1 ∧ ∃ p ∈ done, x ∈ p.requests M

section
variable {M M₁ M₂ : Module} {once once₁ once₂ : Once} {done : List PassRun} {p : PassRun}

theorem FunctionAfter.congr {k k' : Marks} {done' : List PassRun} {G G' : Function}
    (h : FunctionAfter M k done G G') (hfence : k'.fence = some G.name ↔ k.fence = some G.name)
    (hflush : k'.flush = some G.name ↔ k.flush = some G.name)
    (hstored : .storeFlush G.name ∈ done' ↔ .storeFlush G.name ∈ done) :
    FunctionAfter M k' done' G G' := by
  refine ⟨h.mem, h.base, fun hw => ?_⟩
  rw [decide_eq_decide.mpr hfence, decide_eq_decide.mpr hflush, decide_eq_decide.mpr hstored]
  exact h.dressed hw

theorem FunctionAfter.other {k : Marks} (hk : k.Sound) {G G' : Function}
    (h : FunctionAfter M k done G G') (hne : G.name ≠ p.function) :
    FunctionAfter M (k.next M p) (done ++ [p]) G G' := by
  refine h.congr (hk.next_fence_iff hne) (hk.next_flush_iff hne) ?_
  have hp : p ≠ .storeFlush G.name := by
    rintro rfl
    exact hne rfl
  simp [hp.symm]

theorem FunctionAfter.untouched {k : Marks} {G G' : Function} (h : FunctionAfter M k done G G')
    (hnext : k.next M p = k) (hp : .storeFlush G.name ≠ p ∨ isWrapper G.name = true) :
    FunctionAfter M (k.next M p) (done ++ [p]) G G' := by
  rcases hp with hp | hw
  · rw [hnext]
    exact h.congr Iff.rfl Iff.rfl (by simp [hp])
  · exact ⟨h.mem, h.base, fun hw' => absurd (hw.symm.trans hw') (by simp)⟩

theorem FunctionAfter.stores {k : Marks} {G F F' : Function} {changed : Bool} (hM : M.WellFormed)
    (h : FunctionAfter M k done G F) (hnot : .storeFlush F.name ∉ done)
    (he : instrumentBody M.dataLayout F = .ok (F', changed)) (hext : F.Extends F') :
    FunctionAfter M k (done ++ [.storeFlush F.name]) G F' := by
  refine ⟨h.mem, h.base.trans hext, fun hw => ?_⟩
  have hd := h.dressed hw
  rw [h.base.name] at hnot ⊢
  have hnow : .storeFlush G.name ∈ done ++ [.storeFlush G.name] := by simp
  rw [decide_eq_false hnot] at hd
  rw [decide_eq_true hnow]
  exact hd.stores h.base (hM.functions G h.mem).store_typed he

section
variable {k : Marks} (hk : k.Sound) {G F : Function} {e : Block} {bs : List Block}
  (h : FunctionAfter M k done G F) (hb : F.blocks = e :: bs)
include hk h hb

/-- The function has no callback of the fence pass before its fence callback. -/
theorem FunctionAfter.fence (hc : Contains F.name fenceFunctionName)
    (ho : k.once.fence = false) (hdef : (M.lookup F.name).isSome = true)
    (hext : F.Extends (F.prepend e bs fenceCallback)) :
    FunctionAfter M (k.next M (.fence F.name)) (done ++ [.fence F.name]) G
      (F.prepend e bs fenceCallback) := by
  refine ⟨h.mem, h.base.trans hext, fun hw => ?_⟩
  have hfence : k.fence ≠ some G.name := fun heq => by
    simpa [ho] using hk.fence (by simp [heq])
  have hflush : k.flush ≠ some G.name := fun heq => by
    simpa [ho] using hk.order _ heq (h.base.name ▸ hc)
  have hd := h.dressed hw
  rw [decide_eq_false hfence, decide_eq_false hflush] at hd
  rw [Marks.next_fence hdef hc ho, decide_eq_false hflush,
    decide_eq_true (show some F.name = some G.name by rw [h.base.name])]
  simpa using hd.fence hb

theorem FunctionAfter.flush {r : ℕ} {ty : Ty} {ps : List (ℕ × Ty)}
    (hn : ¬ (Contains F.name fenceFunctionName ∧ k.once.fence = false))
    (hc : Contains F.name flushFunctionName) (ho : k.once.flush = false)
    (hdef : (M.lookup F.name).isSome = true) (hps : F.params = (r, ty) :: ps)
    (hext : F.Extends (F.prepend e bs (flushGroup M.dataLayout F.freshReg r ty))) :
    FunctionAfter M (k.next M (.fence F.name)) (done ++ [.fence F.name]) G
      (F.prepend e bs (flushGroup M.dataLayout F.freshReg r ty)) := by
  refine ⟨h.mem, h.base.trans hext, fun hw => ?_⟩
  have hflush : k.flush ≠ some G.name := fun heq => by
    simpa [ho] using hk.flush (by simp [heq])
  have hd := h.dressed hw
  rw [decide_eq_false hflush] at hd
  rw [Marks.next_flush hdef hn hc ho,
    decide_eq_true (show some F.name = some G.name by rw [h.base.name])]
  simpa using hd.flush h.base (h.base.params.symm.trans hps) hb

end

section
variable (hext : M.Extends M₁) (h : Scheduled once M done once₁ M₁)
  (heff : PassEffect once₁ M₁ p once₂ M₂)
include hext h heff

theorem Scheduled.functions_step (hM : M.WellFormed)
    (hcount : ∀ G ∈ M.defs, (done ++ [p]).count (.storeFlush G.name) ≤ 1) :
    List.Forall₂ (FunctionAfter M (marks once M (done ++ [p])) (done ++ [p])) M.defs
      M₂.defs := by
  obtain ⟨rfl, hfun, -⟩ := h
  have hk : (marks once M done).Sound := marks_sound done
  rw [marks_snoc]
  generalize marks once M done = k at *
  have hn : (M₁.defs.map (·.name)).Nodup := hext.names ▸ hM.names_nodup
  -- all runs that insert something replace one function
  have hupdate : ∀ {N : Module} {F F' : Function}, N.defs = M₁.defs → F ∈ M₁.defs →
      F.Extends F' → p.function = F.name →
      (∀ G, FunctionAfter M k done G F → FunctionAfter M (k.next M p) (done ++ [p]) G F') →
      List.Forall₂ (FunctionAfter M (k.next M p) (done ++ [p])) M.defs (N.update F').defs := by
    intro N F F' hN hF hFF' hp hone
    rw [← hN] at hfun hn hF
    refine Module.forall₂_update hfun hn hF hFF'.name hone fun G G' hne hG => hG.other hk ?_
    rw [hp, ← hG.base.name]
    exact hne
  cases heff with
  | unknown hl =>
    refine hfun.imp fun G G' hG => hG.other hk ?_
    exact Module.lookup_eq_none (hext.lookup_eq_none hl) hG.mem
  | @wrapper f hw =>
    refine hfun.imp fun G G' hG => ?_
    by_cases heq : G.name = f
    · exact hG.untouched rfl (.inr (heq ▸ hw))
    · exact hG.other hk heq
  | @stores F F' changed hF hw he hFF' =>
    refine hupdate (storeFlushCallbacks_defs M₁).1 hF hFF' rfl fun G hG => ?_
    rw [hext.dataLayout] at he
    have hle := hcount G hG.mem
    rw [← hG.base.name] at hle
    exact hG.stores hM (notMem_of_count_le_one hle) he hFF'
  | fence hF hc ho hb hFF' =>
    refine hupdate (fenceFlushCallbacks_defs M₁).1 hF hFF' rfl fun G hG => ?_
    exact hG.fence hk hb hc ho (hext.isSome_lookup_of_mem hF) hFF'
  | flush hF hn hc ho hps hb hFF' =>
    refine hupdate (fenceFlushCallbacks_defs M₁).1 hF hFF' rfl fun G hG => ?_
    rw [hext.dataLayout] at hFF' ⊢
    exact hG.flush hk hb hn hc ho (hext.isSome_lookup_of_mem hF) hps hFF'
  | neither hF hn hm =>
    rw [(fenceFlushCallbacks_defs M₁).1]
    exact hfun.imp fun G G' hG => hG.untouched (Marks.next_neither hn hm) (.inl (by simp))

theorem Scheduled.decls_step (x : Name × FnTy) : x ∈ M₂.decls ↔
    x ∈ M.decls ∨ ¬ M.Present x.1 ∧ ∃ q ∈ done ++ [p], x ∈ q.requests M := by
  rw [heff.decls_eq hext, Module.mem_declareAll_decls p.requests_nodup, h.decls x]
  have hlookup : (M₁.lookup x.1).isSome = (M.lookup x.1).isSome := hext.isSome_lookup x.1
  constructor
  · rintro ((hx | ⟨hnot, q, hq, hx⟩) | ⟨hx, hnot⟩)
    · exact .inl hx
    · exact .inr ⟨hnot, q, by simp [hq], hx⟩
    · refine .inr ⟨fun hpres => hnot ?_, p, by simp, hx⟩
      refine hpres.imp (fun hl => hlookup.trans hl) fun hmem => ?_
      obtain ⟨y, hy, hname⟩ := List.mem_map.mp hmem
      exact List.mem_map.mpr ⟨y, (h.decls y).mpr (.inl hy), hname⟩
  · rintro (hx | ⟨hnot, q, hq, hx⟩)
    · exact .inl (.inl hx)
    · rcases List.mem_append.mp hq with hq | hq
      · exact .inl (.inr ⟨hnot, q, hq, hx⟩)
      obtain rfl := List.mem_singleton.mp hq
      by_cases hpres : M₁.Present x.1
      · -- an earlier run has asked for it, with the same type
        refine .inl (.inr ⟨hnot, ?_⟩)
        rcases hpres with hl | hmem
        · exact absurd (.inl (hlookup.symm.trans hl)) hnot
        obtain ⟨y, hy, hname⟩ := List.mem_map.mp hmem
        rcases (h.decls y).mp hy with hy | ⟨-, q', hq', hy⟩
        · exact absurd (.inr (hname ▸ List.mem_map_of_mem hy)) hnot
        · exact ⟨q', hq', PassRun.requests_inj hx hy hname.symm ▸ hy⟩
      · exact .inr ⟨hx, hpres⟩

end

theorem Scheduled.start (hM : M.WellFormed) (once : Once) : Scheduled once M [] once M where
  flags := rfl
  functions := List.forall₂_same.mpr fun G hG => ⟨hG, .refl G, fun _ => by
    simpa [marks] using Dressed.start (hM.functions G hG).blocks_ne_nil⟩
  decls x := by simp

/-- What a schedule does that runs the store pass at most once on each function. -/
theorem runPasses_scheduled (hM : M.WellFormed) {ps : List PassRun}
    (hcount : ∀ G ∈ M.defs, ps.count (.storeFlush G.name) ≤ 1)
    (hrun : runPasses (once, M) ps = .ok (once₁, M₁)) :
    M.Extends M₁ ∧ Scheduled once M ps once₁ M₁ := by
  have hmain := runPasses_invariant hM
    (I := fun done once₁ M₁ => (∀ G ∈ M.defs, done.count (.storeFlush G.name) ≤ 1) →
      Scheduled once M done once₁ M₁)
    (fun _ => .start hM once)
    (fun done once₁ M₁ p once₂ M₂ hext hI heff hle => by
      have h := hI fun G hG => (by simp : done.count _ ≤ (done ++ [p]).count _).trans (hle G hG)
      refine ⟨?_, h.functions_step hext heff hM hle, h.decls_step hext heff⟩
      rw [marks_snoc]
      exact PassEffect.once_eq hext (h.flags ▸ heff))
    hrun
  exact ⟨hmain.1, hmain.2 hcount⟩

end

/-! ## Schedules with the same visits -/

/-- Where the entry block of `G` begins with a store, that of `G'` begins with the callbacks of the
fence pass, and the callback of the store comes next, directly before the store. -/
def EntryStoreLast (dl : DataLayout) (fenced flushed : Bool) (G G' : Function) : Prop :=
  ∀ e bs v p rest, G.blocks = e :: bs → e.insts = .store v p :: rest →
    ∃ a m e' bs' rest', G'.blocks = e' :: bs' ∧
      e'.insts = entryCallbacks dl fenced flushed G a ++
        (storeGroup dl m p v.ty ++ .store v p :: rest')

theorem Dressed.entryStoreLast {dl : DataLayout} {fenced flushed : Bool} {G G' : Function}
    (htyped : ∀ b ∈ G.blocks, StoresTyped b.insts) (h : Dressed dl fenced flushed true G G') :
    EntryStoreLast dl fenced flushed G G' := by
  intro e bs v p rest hb he
  obtain ⟨e', bs', a, m, rfl, -, -, ⟨c, hB⟩, -⟩ := h
  have hp : p.ty.pointee? = some v.ty := htyped e (by simp [hb]) v p (by simp [he])
  rw [hb, instrumentBlocks_eq_ok_iff] at hB
  cases hB with
  | cons hentry _ =>
    rw [he] at hentry
    cases hentry with
    | store hnew _ =>
      obtain rfl := storeCallback_eq hnew hp
      exact ⟨a, m, _, _, _, rfl, rfl⟩
    | other hi => cases hi

/-- `M₁` and `M₂` come from `M`, with the same declarations and, but for the registers that were
not in `M`, the same functions. -/
structure Module.SameButNew (M M₁ M₂ : Module) : Prop where
  dataLayout : M₁.dataLayout = M₂.dataLayout
  names : M₁.defs.map (·.name) = M₂.defs.map (·.name)
  decls : ∀ x, x ∈ M₁.decls ↔ x ∈ M₂.decls
  functions : ∀ G ∈ M.defs, ∃ G₁ G₂, M₁.lookup G.name = some G₁ ∧ M₂.lookup G.name = some G₂ ∧
    G.SameButNew G₁ G₂

theorem runPass_lookup {once once' : Once} {M M' : Module} {p : PassRun}
    (h : runPass (once, M) p = .ok (once', M')) {n : Name} (hn : n ≠ p.function) :
    M'.lookup n = M.lookup n := by
  have hsame : ∀ {N : Module}, N.defs = M.defs → N.lookup n = M.lookup n := by
    intro N hN
    rw [Module.lookup, Module.lookup, hN]
  have hupdate : ∀ {N : Module} {F : Function}, N.defs = M.defs → F.name = p.function →
      (N.update F).lookup n = M.lookup n := by
    intro N F hN hF
    rw [Module.lookup_update_ne (hF ▸ hn.symm), hsame hN]
  cases hl : M.lookup p.function with
  | none =>
    obtain rfl : M = M' := by
      cases p <;> simp_all [runPass, PassRun.function]
    rfl
  | some F =>
    obtain ⟨-, hname⟩ := Module.lookup_mem hl
    cases p with
    | storeFlush f =>
      simp only [runPass, show M.lookup f = some F from hl] at h
      obtain ⟨⟨N, _⟩, hone, h⟩ := bind_eq_ok h
      obtain ⟨-, rfl⟩ := Prod.mk.inj (Except.ok.inj h)
      obtain ⟨-, changed, hfun⟩ := storeFlushInstru_cases hone
      rcases instrumentFunction_cases hfun with ⟨-, rfl, -⟩ | ⟨-, F', he, rfl⟩
      · rfl
      · exact hupdate (storeFlushCallbacks_defs M).1 ((instrumentBody_name he).trans hname)
    | fence f =>
      simp only [runPass, show M.lookup f = some F from hl] at h
      obtain ⟨⟨once₁, N, _⟩, hone, h⟩ := bind_eq_ok h
      obtain ⟨-, rfl⟩ := Prod.mk.inj (Except.ok.inj h)
      obtain ⟨-, ⟨-, F', hF', -, rfl⟩ | ⟨-, rfl⟩⟩ := fenceInstru_cases hone
      · exact hupdate (fenceFlushCallbacks_defs M).1 (hF'.trans hname)
      · exact hsame (fenceFlushCallbacks_defs M).1

section
variable {M M₁ M₂ : Module} {once once₁ once₂ : Once} {ps qs : List PassRun}

theorem requests_of_visits (hqs : ∀ F ∈ M.defs, .storeFlush F.name ∈ qs)
    (hvisits : fenceVisits ps = fenceVisits qs) {x : Name × FnTy}
    (h : ∃ p ∈ ps, x ∈ p.requests M) : ∃ q ∈ qs, x ∈ q.requests M := by
  obtain ⟨p, hp, hx⟩ := h
  refine ⟨p, ?_, hx⟩
  cases p with
  | fence f => rwa [← mem_fenceVisits, ← hvisits, mem_fenceVisits]
  | storeFlush f =>
    cases hl : M.lookup f with
    | none => simp [PassRun.requests, hl] at hx
    | some F =>
      obtain ⟨hF, rfl⟩ := Module.lookup_mem hl
      exact hqs F hF

theorem Scheduled.after (hM : M.WellFormed) (hext : M.Extends M₁)
    (h : Scheduled once M ps once₁ M₁) {G : Function} (hG : G ∈ M.defs)
    (hstored : .storeFlush G.name ∈ ps) : ∃ G₁, M₁.lookup G.name = some G₁ ∧ G.Extends G₁ ∧
      (isWrapper G.name = false →
        Dressed M.dataLayout (decide ((marks once M ps).fence = some G.name))
          (decide ((marks once M ps).flush = some G.name)) true G G₁) := by
  have hn : (M₁.defs.map (·.name)).Nodup := hext.names ▸ hM.names_nodup
  obtain ⟨G₁, hG₁, hafter⟩ := exists_right_of_forall₂ h.functions hG
  refine ⟨G₁, ?_, hafter.base, fun hw => ?_⟩
  · rw [← hafter.base.name]
    exact Module.lookup_of_mem hn hG₁
  · have hd := hafter.dressed hw
    rwa [decide_eq_true hstored] at hd

theorem Scheduled.sameButNew (hM : M.WellFormed) (hext₁ : M.Extends M₁) (hext₂ : M.Extends M₂)
    (h₁ : Scheduled once M ps once₁ M₁) (h₂ : Scheduled once M qs once₂ M₂)
    (hmem : ∀ F ∈ M.defs, .storeFlush F.name ∈ ps ∧ .storeFlush F.name ∈ qs)
    (hvisits : fenceVisits ps = fenceVisits qs) : M.SameButNew M₁ M₂ where
  dataLayout := hext₁.dataLayout.trans hext₂.dataLayout.symm
  names := hext₁.names.trans hext₂.names.symm
  decls x := by
    rw [h₁.decls, h₂.decls]
    refine or_congr_right (and_congr_right fun _ => ⟨?_, ?_⟩)
    · exact requests_of_visits (fun F hF => (hmem F hF).2) hvisits
    · exact requests_of_visits (fun F hF => (hmem F hF).1) hvisits.symm
  functions G hG := by
    obtain ⟨G₁, hl₁, hbase₁, hd₁⟩ := h₁.after hM hext₁ hG (hmem G hG).1
    obtain ⟨G₂, hl₂, hbase₂, hd₂⟩ := h₂.after hM hext₂ hG (hmem G hG).2
    refine ⟨G₁, G₂, hl₁, hl₂, ?_⟩
    cases hw : isWrapper G.name with
    | true =>
      rw [hbase₁.wrapper hw, hbase₂.wrapper hw]
      exact .refl G G
    | false =>
      rw [← marks_congr hvisits] at hd₂
      exact (hd₁ hw).sameButNew (hM.functions G hG).store_typed hbase₁ (hd₂ hw)

theorem Scheduled.entryStoreLast (hM : M.WellFormed) (hext : M.Extends M₁)
    (h : Scheduled once M ps once₁ M₁) {G G₁ : Function} (hG : G ∈ M.defs)
    (hstored : .storeFlush G.name ∈ ps) (hw : isWrapper G.name = false)
    (hl : M₁.lookup G.name = some G₁) :
    EntryStoreLast M.dataLayout (decide ((marks once M ps).fence = some G.name))
      (decide ((marks once M ps).flush = some G.name)) G G₁ := by
  obtain ⟨G', hl', -, hd⟩ := h.after hM hext hG hstored
  obtain rfl := Option.some.inj (hl'.symm.trans hl)
  exact (hd hw).entryStoreLast (hM.functions G hG).store_typed

end

/-- The passes are local, and any two schedules that run the store pass once on every function and
make the same visits of the fence pass, however they interleave, fail both or have the same result
but for the registers of what was inserted. -/
theorem runPasses_commute {M : Module} (hM : M.WellFormed) (once : Once) {ps qs : List PassRun}
    (hps : ∀ F ∈ M.defs, ps.count (.storeFlush F.name) = 1)
    (hqs : ∀ F ∈ M.defs, qs.count (.storeFlush F.name) = 1)
    (hvisits : fenceVisits ps = fenceVisits qs) :
    (∀ p once₁ N once₂ N', runPass (once₁, N) p = .ok (once₂, N') →
      ∀ n, n ≠ p.function → N'.lookup n = N.lookup n) ∧
    (runPasses (once, M) ps).isOk = (runPasses (once, M) qs).isOk ∧
    ∀ once₁ M₁ once₂ M₂, runPasses (once, M) ps = .ok (once₁, M₁) →
      runPasses (once, M) qs = .ok (once₂, M₂) →
      once₁ = once₂ ∧ M.SameButNew M₁ M₂ ∧
      ∀ G ∈ M.defs, isWrapper G.name = false → ∀ G',
        M₁.lookup G.name = some G' ∨ M₂.lookup G.name = some G' →
          EntryStoreLast M.dataLayout (decide ((marks once M ps).fence = some G.name))
            (decide ((marks once M ps).flush = some G.name)) G G' := by
  have hmarks : marks once M ps = marks once M qs := marks_congr hvisits
  have hmem : ∀ F ∈ M.defs, .storeFlush F.name ∈ ps ∧ .storeFlush F.name ∈ qs := fun F hF =>
    ⟨List.count_pos_iff.mp (by simp [hps F hF]), List.count_pos_iff.mp (by simp [hqs F hF])⟩
  refine ⟨fun p once₁ N once₂ N' h n hn => runPass_lookup h hn, ?_, ?_⟩
  · rw [Bool.eq_iff_iff, runPasses_isOk_iff hM, runPasses_isOk_iff hM, hmarks]
  intro once₁ M₁ once₂ M₂ hrun₁ hrun₂
  obtain ⟨hext₁, h₁⟩ := runPasses_scheduled hM (fun G hG => (hps G hG).le) hrun₁
  obtain ⟨hext₂, h₂⟩ := runPasses_scheduled hM (fun G hG => (hqs G hG).le) hrun₂
  refine ⟨by rw [h₁.flags, h₂.flags, hmarks], h₁.sameButNew hM hext₁ hext₂ h₂ hmem hvisits,
    fun G hG hw G' hG' => ?_⟩
  rcases hG' with hG' | hG'
  · exact h₁.entryStoreLast hM hext₁ hG (hmem G hG).1 hw hG'
  · rw [hmarks]
    exact h₂.entryStoreLast hM hext₂ hG (hmem G hG).2 hw hG'

namespace Driver

/-- A flush function that stores through its argument first. -/
def flushMarked : Function where
  name := "nova_flush_buffer"
  params := [(0, .ptr (.int 64) 0)]
  nounwind := true
  blocks := [⟨0, [.store (.const (.int 64 7)) (.reg 0 (.ptr (.int 64) 0)), .term (.ret none)]⟩]

def marked : Module := ⟨program.dataLayout, [], [flushMarked]⟩

theorem marked_wellFormed : marked.WellFormed := by
  refine ⟨by simp [marked], ?_⟩
  simp only [marked, List.mem_singleton, forall_eq]
  refine ⟨by decide, by decide, by decide, ?_, by decide, by decide, ?_⟩
  · simp only [flushMarked, List.mem_singleton, forall_eq]
    exact shaped_of_body [_] (by decide)
  · simp [flushMarked, Operand.ty, Const.ty, Ty.pointee?]

def storesFirst : List PassRun := [.storeFlush "nova_flush_buffer", .fence "nova_flush_buffer"]

def fenceFirst : List PassRun := [.fence "nova_flush_buffer", .storeFlush "nova_flush_buffer"]

def flushMarkedAfter (ps : List PassRun) : Option Function :=
  (runPasses (⟨false, false⟩, marked) ps).toOption.bind fun s => s.2.lookup flushMarked.name

/-- The two orders number the casts differently, and do not differ in anything else. -/
theorem marked_commutes :
    flushMarkedAfter storesFirst ≠ flushMarkedAfter fenceFirst ∧
      ∃ G₁ G₂, flushMarkedAfter storesFirst = some G₁ ∧ flushMarkedAfter fenceFirst = some G₂ ∧
        flushMarked.SameButNew G₁ G₂ := by
  refine ⟨by decide +kernel, ?_⟩
  have hfl : FlushTakesAddress marked := by
    simp only [FlushTakesAddress, marked, List.mem_singleton, forall_eq]
    exact fun _ => ⟨_, _, _, rfl, .inl rfl⟩
  obtain ⟨once₁, M₁, hrun₁⟩ := runPasses_ok marked_wellFormed (.refl marked) storesFirst
    (fun _ _ => hfl) ⟨false, false⟩
  obtain ⟨once₂, M₂, hrun₂⟩ := runPasses_ok marked_wellFormed (.refl marked) fenceFirst
    (fun _ _ => hfl) ⟨false, false⟩
  have hstores : ∀ F ∈ marked.defs, storesFirst.count (.storeFlush F.name) = 1 := by decide
  have hfence : ∀ F ∈ marked.defs, fenceFirst.count (.storeFlush F.name) = 1 := by decide
  obtain ⟨-, -, h⟩ := runPasses_commute marked_wellFormed ⟨false, false⟩ hstores hfence rfl
  obtain ⟨-, hsame, -⟩ := h _ _ _ _ hrun₁ hrun₂
  obtain ⟨G₁, G₂, hl₁, hl₂, hG⟩ := hsame.functions flushMarked (by simp [marked])
  refine ⟨G₁, G₂, ?_, ?_, hG⟩
  · rw [flushMarkedAfter, hrun₁]
    exact hl₁
  · rw [flushMarkedAfter, hrun₂]
    exact hl₂

end Driver

end Squint.IR
