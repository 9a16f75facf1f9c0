import Squint.IR.Guard
import Squint.IR.Renaming

/-! The form that the two passes give to a function: the callbacks of its entry, then its blocks
with a callback in front of every store. Which registers the casts got depends on the order of the
passes, and nothing else does. -/
namespace Squint.IR

/-! ## Store callbacks from another register on -/

/-- The registers from `m` on become those from `n` on. -/
def shift (m n r : ℕ) : ℕ := if r < m then r else n + (r - m)

theorem shift_of_lt {m n r : ℕ} (h : r < m) : shift m n r = r := if_pos h

theorem shift_add (m n k : ℕ) : shift m n (m + k) = n + k := by
  simp [shift]

theorem storeGroup_rename (dl : DataLayout) {σ : ℕ → ℕ} {p : Operand} (hp : ∀ r ∈ p.regs, σ r = r)
    (fresh : ℕ) (ty : Ty) :
    (storeGroup dl fresh p ty).map (Inst.rename σ) = storeGroup dl (σ fresh) p ty := by
  cases p with
  | const c => simp [storeGroup, storeArgs, pointerCast, Inst.rename, Callee.rename, Operand.rename]
  | reg r t =>
    have hr : σ r = r := hp r (by simp [Operand.regs])
    simp [storeGroup, storeArgs, pointerCast, Inst.rename, Callee.rename, Operand.rename, hr]

theorem storeGroup_length (dl : DataLayout) (fresh fresh' : ℕ) (p : Operand) (ty : Ty) :
    (storeGroup dl fresh p ty).length = (storeGroup dl fresh' p ty).length := by
  cases p <;> simp [storeGroup, pointerCast]

section
variable {dl : DataLayout} {m k : ℕ} {c c' : Cursor}

/-- The store pass numbers its casts from where it starts, and looks at nothing else. -/
theorem Walked.shift (n : ℕ) {l l' : List Inst} (h : Walked dl c l l' c') (hl : StoresTyped l)
    (hregs : ∀ r ∈ l.flatMap Inst.regs, r < m) (hc : c.fresh = m + k) :
    ∃ k', c'.fresh = m + k' ∧ Walked dl ⟨n + k, c.changed⟩ l (l'.map (Inst.rename (shift m n)))
      ⟨n + k', c'.changed⟩ := by
  induction h generalizing k with
  | nil => exact ⟨k, hc, .nil⟩
  | @store c c' v p new l l' hnew _ ih =>
    have hp := hl v p List.mem_cons_self
    obtain rfl := storeCallback_eq hnew hp
    simp only [List.flatMap_cons, List.mem_append] at hregs
    obtain ⟨k', hk', he⟩ := ih (k := k + (storeGroup dl c.fresh p v.ty).length) hl.tail
      (fun r hr => hregs r (.inr hr)) (by dsimp only; omega)
    have hstore : (Inst.store v p).rename (IR.shift m n) = .store v p :=
      Inst.rename_of_fixed fun r hr => shift_of_lt (hregs r (.inl hr))
    have hgroup : (storeGroup dl c.fresh p v.ty).map (Inst.rename (IR.shift m n)) =
        storeGroup dl (n + k) p v.ty := by
      rw [storeGroup_rename dl fun r hr => shift_of_lt (hregs r (.inl (by simp [Inst.regs, hr]))),
        hc, shift_add]
    refine ⟨k', hk', ?_⟩
    rw [List.map_append, List.map_cons, hgroup, hstore]
    refine .store (storeCallback_of_pointee hp dl (n + k)) ?_
    rwa [storeGroup_length dl (n + k) c.fresh, Nat.add_assoc]
  | @other c c' i l l' hi _ ih =>
    simp only [List.flatMap_cons, List.mem_append] at hregs
    obtain ⟨k', hk', he⟩ := ih hl.tail (fun r hr => hregs r (.inr hr)) hc
    have hsame : i.rename (IR.shift m n) = i :=
      Inst.rename_of_fixed fun r hr => shift_of_lt (hregs r (.inl hr))
    refine ⟨k', hk', ?_⟩
    rw [List.map_cons, hsame]
    exact .other hi he

theorem WalkedBlocks.shift (n : ℕ) {bs bs' : List Block} (h : WalkedBlocks dl c bs bs' c')
    (hbs : ∀ b ∈ bs, StoresTyped b.insts) (hregs : ∀ r ∈ blockRegs bs, r < m)
    (hc : c.fresh = m + k) :
    ∃ k', c'.fresh = m + k' ∧ WalkedBlocks dl ⟨n + k, c.changed⟩ bs
      (bs'.map (Block.rename (shift m n))) ⟨n + k', c'.changed⟩ := by
  induction h generalizing k with
  | nil => exact ⟨k, hc, .nil⟩
  | cons hb _ ih =>
    simp only [blockRegs, List.flatMap_cons, List.mem_append] at hregs
    obtain ⟨k₁, hk₁, hb'⟩ :=
      hb.shift n (hbs _ List.mem_cons_self) (fun r hr => hregs r (.inl hr)) hc
    obtain ⟨k₂, hk₂, hbs'⟩ := ih (fun b hb => hbs b (List.mem_cons_of_mem _ hb))
      (fun r hr => hregs r (.inr hr)) hk₁
    exact ⟨k₂, hk₂, .cons hb' hbs'⟩

/-- What the store pass inserts uses new registers, and those that were there. -/
theorem Walked.regs {l l' : List Inst} (h : Walked dl c l l' c') (hl : StoresTyped l) :
    ∀ r ∈ l'.flatMap Inst.regs, r ∈ l.flatMap Inst.regs ∨ c.fresh ≤ r := by
  induction h with
  | nil => simp
  | @store c c' v p new l l' hnew _ ih =>
    obtain rfl := storeCallback_eq hnew (hl v p List.mem_cons_self)
    intro r hr
    simp only [List.flatMap_append, List.flatMap_cons, List.mem_append] at hr ⊢
    rcases hr with hr | hr | hr
    · rcases storeGroup_regs hr with rfl | hr
      · exact .inr le_rfl
      · exact .inl (.inl (by simp [Inst.regs, hr]))
    · exact .inl (.inl hr)
    · exact (ih hl.tail r hr).imp .inr (Nat.le_add_right _ _).trans
  | other _ _ ih =>
    intro r hr
    simp only [List.flatMap_cons, List.mem_append] at hr ⊢
    rcases hr with hr | hr
    · exact .inl (.inl hr)
    · exact (ih hl.tail r hr).imp_left .inr

theorem WalkedBlocks.regs {bs bs' : List Block} (h : WalkedBlocks dl c bs bs' c')
    (hbs : ∀ b ∈ bs, StoresTyped b.insts) :
    ∀ r ∈ blockRegs bs', r ∈ blockRegs bs ∨ c.fresh ≤ r := by
  induction h with
  | nil => simp [blockRegs]
  | cons hb _ ih =>
    have hrest := ih fun b hb => hbs b (List.mem_cons_of_mem _ hb)
    intro r hr
    simp only [blockRegs, List.flatMap_cons, List.mem_append] at hr hrest ⊢
    rcases hr with hr | hr
    · exact (hb.regs (hbs _ List.mem_cons_self) r hr).imp_left .inl
    · exact (hrest r hr).imp .inr hb.fresh_le.trans

end

/-! ## Entry callbacks -/

def flushAt (dl : DataLayout) (G : Function) (a : ℕ) : List Inst :=
  (G.params.head?.map fun p => flushGroup dl a p.1 p.2).getD []

def entryCallbacks (dl : DataLayout) (fenced flushed : Bool) (G : Function) (a : ℕ) : List Inst :=
  (if flushed then flushAt dl G a else []) ++ if fenced then fenceCallback else []

section
variable {dl : DataLayout} {fenced flushed : Bool} {G : Function} {a a' : ℕ}

theorem flushAt_cons {p : ℕ × Ty} {ps : List (ℕ × Ty)} (h : G.params = p :: ps) :
    flushAt dl G a = flushGroup dl a p.1 p.2 := by
  simp [flushAt, h]

theorem flushAt_regs {r : ℕ} (h : r ∈ (flushAt dl G a).flatMap Inst.regs) :
    r = a ∨ r ∈ G.params.map (·.1) := by
  cases hps : G.params with
  | nil => simp [flushAt, hps] at h
  | cons p ps =>
    rw [flushAt_cons hps, flushGroup] at h
    split_ifs at h
    · simp_all [Inst.regs, Operand.regs, Callee.regs]
    · simp_all [Inst.regs, Operand.regs, Callee.regs]
      tauto

theorem flushAt_not_store : ∀ i ∈ flushAt dl G a, i.isStore = false := by
  cases hps : G.params with
  | nil => simp [flushAt, hps]
  | cons p ps =>
    rw [flushAt_cons hps]
    exact fun i hi => (flushGroup_silent _ _ _ _ i hi).not_store

theorem flushAt_rename {σ : ℕ → ℕ} (hparams : ∀ r ∈ G.params.map (·.1), σ r = r)
    (ha : a ∈ (flushAt dl G a).flatMap Inst.regs → σ a = a') :
    (flushAt dl G a).map (Inst.rename σ) = flushAt dl G a' := by
  cases hps : G.params with
  | nil => simp [flushAt, hps]
  | cons p ps =>
    have hp : σ p.1 = p.1 := hparams p.1 (by simp [hps])
    rw [flushAt_cons hps] at ha ⊢
    rw [flushAt_cons hps]
    unfold flushGroup at ha ⊢
    split_ifs at ha ⊢
    · simp [Inst.rename, Callee.rename, Operand.rename, hp]
    · have ha' : σ a = a' := ha (by simp [Inst.regs])
      simp [Inst.rename, Callee.rename, Operand.rename, hp, ha']

theorem fenceCallback_regs : fenceCallback.flatMap Inst.regs = [] := rfl

theorem entryCallbacks_regs {r : ℕ}
    (h : r ∈ (entryCallbacks dl fenced flushed G a).flatMap Inst.regs) :
    r = a ∨ r ∈ G.params.map (·.1) := by
  cases flushed with
  | false => cases fenced <;> simp [entryCallbacks, fenceCallback_regs] at h
  | true =>
    apply flushAt_regs
    cases fenced <;> simpa [entryCallbacks, fenceCallback_regs] using h

theorem entryCallbacks_not_store :
    ∀ i ∈ entryCallbacks dl fenced flushed G a, i.isStore = false := by
  intro i hi
  rcases List.mem_append.mp hi with hi | hi
  · cases flushed with
    | false => simp at hi
    | true => exact flushAt_not_store i hi
  · cases fenced with
    | false => simp at hi
    | true => exact (fenceCallback_silent 0 i hi).not_store

theorem entryCallbacks_rename {σ : ℕ → ℕ} (hparams : ∀ r ∈ G.params.map (·.1), σ r = r)
    (ha : a ∈ (entryCallbacks dl fenced flushed G a).flatMap Inst.regs → σ a = a') :
    (entryCallbacks dl fenced flushed G a).map (Inst.rename σ) =
      entryCallbacks dl fenced flushed G a' := by
  have hfence : fenceCallback.map (Inst.rename σ) = fenceCallback := rfl
  cases flushed with
  | false => cases fenced <;> simp [entryCallbacks, hfence]
  | true =>
    have hflush : (flushAt dl G a).map (Inst.rename σ) = flushAt dl G a' := by
      refine flushAt_rename hparams fun h => ha ?_
      cases fenced <;> simpa [entryCallbacks, fenceCallback_regs] using h
    cases fenced <;> simp [entryCallbacks, hfence, hflush]

end

/-! ## The form of a function -/

/-- `G'` is `G` with entry callbacks and, if `stored`, callbacks in front of its stores, numbered
from `m` on. The cast of the flush callback has a register of its own. -/
def Dressed (dl : DataLayout) (fenced flushed stored : Bool) (G G' : Function) : Prop :=
  ∃ e bs a m, G' = G.prepend e bs (entryCallbacks dl fenced flushed G a) ∧
    G.freshReg ≤ a ∧ G.freshReg ≤ m ∧
    (if stored then ∃ c, instrumentBlocks dl ⟨m, false⟩ G.blocks = .ok (e :: bs, c)
      else G.blocks = e :: bs) ∧
    (a ∈ (entryCallbacks dl fenced flushed G a).flatMap Inst.regs → a ∉ blockRegs (e :: bs))

theorem mem_regs_prepend {G : Function} {e : Block} {bs : List Block} {new : List Inst} {r : ℕ} :
    r ∈ (G.prepend e bs new).regs ↔
      r ∈ G.params.map (·.1) ∨ r ∈ new.flatMap Inst.regs ∨ r ∈ blockRegs (e :: bs) := by
  simp only [Function.regs, Function.prepend, blockRegs, List.flatMap_cons, List.flatMap_append,
    List.mem_append]
  tauto

section
variable {dl : DataLayout} {fenced flushed stored : Bool} {G G' : Function}

theorem Dressed.start (hG : G.blocks ≠ []) : Dressed dl false false false G G := by
  obtain ⟨e, bs, hb⟩ := List.exists_cons_of_ne_nil hG
  refine ⟨e, bs, G.freshReg, G.freshReg, ?_, le_rfl, le_rfl, hb, by simp [entryCallbacks]⟩
  simp [entryCallbacks, Function.prepend, ← hb]

theorem Dressed.stores {G'' : Function} {changed : Bool} (hext : G.Extends G')
    (htyped : ∀ b ∈ G.blocks, StoresTyped b.insts) (h : Dressed dl fenced flushed false G G')
    (he : instrumentBody dl G' = .ok (G'', changed)) : Dressed dl fenced flushed true G G'' := by
  obtain ⟨e, bs, a, m, hG', ha, -, hb, hnot⟩ := h
  have hb : G.blocks = e :: bs := hb
  have hb' : G'.blocks =
      { e with insts := entryCallbacks dl fenced flushed G a ++ e.insts } :: bs := by
    rw [hG']
    rfl
  obtain ⟨⟨blocks, c⟩, hq, he⟩ := bind_eq_ok he
  obtain ⟨rfl, -⟩ := Prod.mk.inj (Except.ok.inj he)
  -- the entry callbacks are no stores, so that the pass goes by them
  rw [hb'] at hq
  obtain ⟨⟨l, c₁⟩, hl, hq⟩ := bind_eq_ok hq
  obtain ⟨⟨bs₁, c₂⟩, hbs₁, hq⟩ := bind_eq_ok hq
  obtain ⟨rfl, rfl⟩ := Prod.mk.inj (Except.ok.inj hq)
  rw [instrumentInsts_append entryCallbacks_not_store] at hl
  obtain ⟨⟨l', c'⟩, hl', hl⟩ := map_eq_ok hl
  obtain ⟨rfl, rfl⟩ := Prod.mk.inj hl
  have hblocks : instrumentBlocks dl ⟨G'.freshReg, false⟩ G.blocks =
      .ok ({ e with insts := l' } :: bs₁, c₂) := by
    simp [hb, instrumentBlocks, hl', hbs₁, bind, Except.bind]
  refine ⟨{ e with insts := l' }, bs₁, a, G'.freshReg, ?_, ha, hext.freshReg_le, ⟨c₂, hblocks⟩,
    fun hmem hmem' => ?_⟩
  · rw [hG']
    rfl
  · rcases (instrumentBlocks_eq_ok_iff.mp hblocks).regs htyped a hmem' with hold | hnew
    · exact hnot hmem (hb ▸ hold)
    · have hlt : a < G'.freshReg := by
        refine Function.lt_freshReg ?_
        rw [hG']
        exact mem_regs_prepend.mpr (.inr (.inl hmem))
      exact absurd hnew (by simpa using hlt)

theorem Dressed.fence (h : Dressed dl false false stored G G') {e' : Block} {bs' : List Block}
    (hb' : G'.blocks = e' :: bs') :
    Dressed dl true false stored G (G'.prepend e' bs' fenceCallback) := by
  obtain ⟨e, bs, a, m, hG', ha, hm, hstored, -⟩ := h
  subst hG'
  obtain ⟨rfl, rfl⟩ := List.cons.inj hb'
  refine ⟨e, bs, a, m, ?_, ha, hm, hstored, ?_⟩
  · simp [entryCallbacks, Function.prepend]
  · simp [entryCallbacks, fenceCallback_regs]

theorem Dressed.flush (h : Dressed dl fenced false stored G G') {e' : Block} {bs' : List Block}
    {r : ℕ} {ty : Ty} {ps : List (ℕ × Ty)} (hext : G.Extends G') (hps : G.params = (r, ty) :: ps)
    (hb' : G'.blocks = e' :: bs') :
    Dressed dl fenced true stored G (G'.prepend e' bs' (flushGroup dl G'.freshReg r ty)) := by
  obtain ⟨e, bs, a, m, hG', ha, hm, hstored, -⟩ := h
  have hregs : ∀ r ∈ blockRegs (e :: bs), r < G'.freshReg := fun r hr => by
    refine Function.lt_freshReg ?_
    rw [hG']
    exact mem_regs_prepend.mpr (.inr (.inr hr))
  refine ⟨e, bs, G'.freshReg, m, ?_, hext.freshReg_le, hm, hstored, fun _ hmem => ?_⟩
  · generalize G'.freshReg = fresh
    subst hG'
    obtain ⟨rfl, rfl⟩ := List.cons.inj hb'
    simp [entryCallbacks, Function.prepend, flushAt_cons hps]
  · exact absurd (hregs _ hmem) (lt_irrefl _)

end

/-! ## The form determines the function -/

/-- From one numbering of the inserted values to another: the registers below `n` stay, those of
`bs` are shifted from `m₁` to `m₂`, and the one that is left becomes `a`. -/
def renumber (n : ℕ) (bs : List Block) (m₁ m₂ a r : ℕ) : ℕ :=
  if r < n then r else if r ∈ blockRegs bs then shift m₁ m₂ r else a

section
variable {n m₁ m₂ a : ℕ} {bs : List Block}

theorem renumber_of_lt {r : ℕ} (h : r < n) : renumber n bs m₁ m₂ a r = r := if_pos h

theorem renumber_of_mem {r : ℕ} (hm : n ≤ m₁) (h : r ∈ blockRegs bs) :
    renumber n bs m₁ m₂ a r = shift m₁ m₂ r := by
  unfold renumber
  split_ifs with hr
  · rw [shift_of_lt (hr.trans_le hm)]
  · rfl

theorem renumber_of_new {r : ℕ} (hr : n ≤ r) (h : r ∉ blockRegs bs) :
    renumber n bs m₁ m₂ a r = a := by
  rw [renumber, if_neg (by omega), if_neg h]

/-- Old registers, those of store callbacks and that of the flush callback stay apart. -/
theorem renumber_injOn {S : Set ℕ} (a₁ : ℕ) (hm₁ : n ≤ m₁) (hm₂ : n ≤ m₂) (ha : n ≤ a)
    (hS : ∀ r ∈ S, r < n ∨ (m₁ ≤ r ∧ r ∈ blockRegs bs) ∨
      (r = a₁ ∧ n ≤ r ∧ r ∉ blockRegs bs ∧ ∀ s ∈ blockRegs bs, shift m₁ m₂ s ≠ a)) :
    Set.InjOn (renumber n bs m₁ m₂ a) S := by
  have hold : ∀ r, r < n → renumber n bs m₁ m₂ a r = r := fun r => renumber_of_lt
  have hstore : ∀ r, m₁ ≤ r → r ∈ blockRegs bs →
      renumber n bs m₁ m₂ a r = m₂ + (r - m₁) := fun r hr hmem => by
    rw [renumber_of_mem hm₁ hmem, shift, if_neg (by omega)]
  have hflush : ∀ r, n ≤ r → r ∉ blockRegs bs → renumber n bs m₁ m₂ a r = a :=
    fun r => renumber_of_new
  intro r hr s hs heq
  rcases hS r hr with hlt | ⟨hle, hmem⟩ | ⟨rfl, hle, hnot, hapart⟩
  · rw [hold r hlt] at heq
    rcases hS s hs with hlt' | ⟨hle', hmem'⟩ | ⟨rfl, hle', hnot', -⟩
    · rw [heq, hold s hlt']
    · have := hstore s hle' hmem'
      omega
    · have := hflush s hle' hnot'
      omega
  · rcases hS s hs with hlt' | ⟨hle', hmem'⟩ | ⟨rfl, hle', hnot', hapart⟩
    · have := hold s hlt'
      have := hstore r hle hmem
      omega
    · have := hstore r hle hmem
      have := hstore s hle' hmem'
      omega
    · rw [hflush s hle' hnot', renumber_of_mem hm₁ hmem] at heq
      exact absurd heq (hapart r hmem)
  · rw [hflush r hle hnot] at heq
    rcases hS s hs with hlt' | ⟨hle', hmem'⟩ | ⟨rfl, -⟩
    · have := hold s hlt'
      omega
    · rw [renumber_of_mem hm₁ hmem'] at heq
      exact absurd heq.symm (hapart s hmem')
    · rfl

end

section
variable {dl : DataLayout} {fenced flushed : Bool} {G G₁ G₂ : Function}

theorem Function.prepend_rename {σ : ℕ → ℕ} (hparams : ∀ r ∈ G.params.map (·.1), σ r = r)
    (e : Block) (bs : List Block) (new : List Inst) : (G.prepend e bs new).rename σ =
      G.prepend (e.rename σ) (bs.map (Block.rename σ)) (new.map (Inst.rename σ)) := by
  have hsame : (G.params.map fun p => (σ p.1, p.2)) = G.params := by
    conv_rhs => rw [← List.map_id G.params]
    refine List.map_congr_left fun p hp => ?_
    rw [hparams p.1 (List.mem_map_of_mem hp)]
    rfl
  simp only [Function.rename, Function.prepend, hsame, List.map_cons, Block.rename,
    List.map_append]

theorem Dressed.sameButNew (htyped : ∀ b ∈ G.blocks, StoresTyped b.insts) (hext : G.Extends G₁)
    (h₁ : Dressed dl fenced flushed true G G₁) (h₂ : Dressed dl fenced flushed true G G₂) :
    G.SameButNew G₁ G₂ := by
  obtain ⟨e₁, bs₁, a₁, m₁, hG₁, ha₁, hm₁, ⟨c₁, hB₁⟩, hnot₁⟩ := h₁
  obtain ⟨e₂, bs₂, a₂, m₂, hG₂, ha₂, hm₂, ⟨c₂, hB₂⟩, hnot₂⟩ := h₂
  have hlow : ∀ r ∈ G.regs, r < G.freshReg := fun r hr => Function.lt_freshReg hr
  have hparams : ∀ r ∈ G.params.map (·.1), r < G.freshReg := fun r hr =>
    hlow r (List.mem_append_left _ hr)
  have hblocks : ∀ r ∈ blockRegs G.blocks, r < G.freshReg := fun r hr =>
    hlow r (List.mem_append_right _ hr)
  -- the blocks of the one are those of the other, shifted
  have hshift : e₂ :: bs₂ = (e₁ :: bs₁).map (Block.rename (shift m₁ m₂)) := by
    obtain ⟨k, -, he⟩ := WalkedBlocks.shift (k := 0) m₂ (instrumentBlocks_eq_ok_iff.mp hB₁) htyped
      (fun r hr => (hblocks r hr).trans_le hm₁) rfl
    rw [← instrumentBlocks_eq_ok_iff] at he
    exact (Prod.mk.inj (Except.ok.inj (hB₂.symm.trans he))).1
  let φ := renumber G.freshReg (e₁ :: bs₁) m₁ m₂ a₂
  have hfixed : ∀ r ∈ G.params.map (·.1), φ r = r := fun r hr => renumber_of_lt (hparams r hr)
  have hentry : (entryCallbacks dl fenced flushed G a₁).map (Inst.rename φ) =
      entryCallbacks dl fenced flushed G a₂ :=
    entryCallbacks_rename hfixed fun hmem => renumber_of_new ha₁ (hnot₁ hmem)
  have hB : (e₁ :: bs₁).map (Block.rename φ) = e₂ :: bs₂ := by
    rw [hshift]
    exact map_rename_congr fun r hr => renumber_of_mem hm₁ hr
  have hinj : Set.InjOn φ {r | r ∈ G₁.regs} := by
    refine renumber_injOn a₁ hm₁ hm₂ ha₂ fun r hr => ?_
    have hr : r ∈ G₁.regs := hr
    rw [hG₁, mem_regs_prepend] at hr
    rcases hr with hr | hr | hr
    · exact .inl (hparams r hr)
    · rcases entryCallbacks_regs hr with rfl | hr'
      · -- the other function has the cast of the flush callback too, in `a₂`
        have hmem : a₂ ∈ (entryCallbacks dl fenced flushed G a₂).flatMap Inst.regs := by
          rw [← hentry, flatMap_regs_rename]
          exact List.mem_map.mpr ⟨r, hr, renumber_of_new ha₁ (hnot₁ hr)⟩
        refine .inr (.inr ⟨rfl, ha₁, hnot₁ hr, fun s hs heq => hnot₂ hmem ?_⟩)
        rw [hshift, blockRegs_rename]
        exact List.mem_map.mpr ⟨s, hs, heq⟩
      · exact .inl (hparams r hr')
    · rcases (instrumentBlocks_eq_ok_iff.mp hB₁).regs htyped r hr with hold | hnew
      · exact .inl (hblocks r hold)
      · exact .inr (.inl ⟨hnew, hr⟩)
  refine .of_injOn hinj (fun r hr => renumber_of_lt (hlow r hr)) hext.regs_subset ?_
  obtain ⟨rfl, rfl⟩ := List.cons.inj hB.symm
  rw [hG₁, hG₂, Function.prepend_rename hfixed, hentry]

end

end Squint.IR
