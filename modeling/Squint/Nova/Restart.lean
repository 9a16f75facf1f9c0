import Squint.Nova.Transactions

/-! Failures during recovery. The words that are rolled back are flushed or copied past the cache,
and the code does not wait for them before it sets the tail of the journal back. So recovery can be
repeated only where a flush is synchronous and the kernel's copy waits for itself. -/
namespace Squint.Nova
open Squint.Lib

section Synchronous

variable {cfg : Config} {j : Journal} {old : ℕ → ℕ}

theorem mem_ops_novaFlushBuffer {cfg : Config} {buf len : ℕ} {fence : Bool} {m : Memory} {o : Op}
    (h : o ∈ (novaFlushBuffer cfg buf len fence).ops m) :
    (∃ x, o = flushOp cfg x) ∨ fence = true ∧ o = .sfence := by
  rw [ops_novaFlushBuffer] at h
  obtain h | h := List.mem_append.mp h
  · obtain ⟨i, -, rfl⟩ := List.mem_map.mp h
    exact Or.inl ⟨_, rfl⟩
  · cases fence
    · simp at h
    · exact Or.inr ⟨rfl, by simpa using h⟩

theorem sure_of_synchronous (h : cfg.supportClwb = false) {buf len a : ℕ} {fence : Bool}
    {m : Memory}
    (hlen : len + cachelineSize ≤ 2 ^ 32) (h₁ : buf ≤ a) (h₂ : a < buf + len) :
    ((novaFlushBuffer cfg buf len fence).after m a).Sure (m a).now := by
  obtain ⟨o, ho, hf⟩ : ∃ o ∈ (novaFlushBuffer cfg buf len fence).ops m, o.Flushes lineOf a :=
    exists_flushes hlen h₁ h₂
  obtain ⟨x, rfl⟩ | ⟨-, rfl⟩ := mem_ops_novaFlushBuffer ho
  · rw [flushOp, h] at ho hf
    exact sure_of_clflush ho hf
      ((within_novaFlushBuffer (fun _ => False) cfg _ _ _).unstored not_false)
  · exact hf.elim

/-- Nothing changes but words that are covered. -/
def Kept (f : ℕ → ℕ) (items : List Item) (m : Memory) : Prop :=
  ∀ a ∉ covered items, (m a).Sure (f a)

/-- Code that stores only old values, to covered words. -/
def StoresOld (old : ℕ → ℕ) (items : List Item) (xs : List Op) : Prop :=
  ∀ o ∈ xs, ∀ a v, o.storedTo a = some v → a ∈ covered items ∧ v = old a

theorem Kept.after_exec {f : ℕ → ℕ} {items : List Item} {m : Memory} {xs : List Op}
    (h : Kept f items m) (hx : StoresOld old items xs) : Kept f items (exec lineOf m xs) := by
  intro a ha
  refine sure_exec (h a ha) fun o ho => ?_
  cases hv : o.storedTo a with
  | none => rfl
  | some v => exact (ha (hx o ho a v hv).1).elim

theorem StoresOld.append {items : List Item} {xs ys : List Op} (hx : StoresOld old items xs)
    (hy : StoresOld old items ys) : StoresOld old items (xs ++ ys) := fun o ho =>
  (List.mem_append.mp ho).elim (hx o) (hy o)

theorem StoresOld.of_prefix {items : List Item} {xs ys : List Op} (h : StoresOld old items ys)
    (hp : xs <+: ys) : StoresOld old items xs := fun o ho => h o (hp.subset ho)

theorem novaUndoLiteJournalEntry_field (h : cfg.supportClwb = false) {items : List Item} {c x : ℕ}
    {m : Memory} (hx : Item.field x ∈ items)
    (he : EntryAt cfg (nowOf m) c journalEntry (wordOf x) (old (wordOf x))) :
    StoresOld old items ((novaUndoLiteJournalEntry cfg c).ops m) ∧
      ((novaUndoLiteJournalEntry cfg c).after m (wordOf x)).Sure (old (wordOf x)) := by
  have hcov : wordOf x ∈ covered items := mem_covered.mpr ⟨_, hx, by simp [Item.words]⟩
  constructor
  · intro o ho a v hv
    rw [ops_undo_field he] at ho
    obtain rfl | ho := List.mem_cons.mp ho
    · simp only [MemOp.storedTo] at hv
      split_ifs at hv with he
      subst he
      exact ⟨hcov, (Option.some.inj hv).symm⟩
    · rw [(within_novaFlushBuffer (fun _ => False) cfg _ _ _).unstored not_false o ho] at hv
      cases hv
  · rw [after_undo_field he]
    have hs : ((novaFlushBuffer cfg (wordOf x) cachelineSize false).after
        ((store (wordOf x) (old (wordOf x)) : Code Unit).after m) (wordOf x)).Sure _ :=
      sure_of_synchronous h (by decide) (Nat.le_refl _) (by unfold cachelineSize; omega)
    have hv : ((store (wordOf x) (old (wordOf x)) : Code Unit).after m (wordOf x)).now =
        old (wordOf x) := by
      simp [Prog.after, exec_singleton, MemOp.onCell]
    rwa [hv] at hs

theorem novaUndoLiteJournalEntry_inode (h : cfg.copyFences = true) (hcsum : cfg.metadataCsum = true)
    {items : List Item} {c pi alterPi : ℕ} {m : Memory} (hx : Item.inode pi alterPi ∈ items)
    (he : EntryAt cfg (nowOf m) c journalInode pi alterPi)
    (hback : (Item.inode pi alterPi).Backed old (nowOf m)) :
    StoresOld old items ((novaUndoLiteJournalEntry cfg c).ops m) ∧
      ∀ a ∈ (Item.inode pi alterPi).words,
        ((novaUndoLiteJournalEntry cfg c).after m a).Sure (old a) := by
  have hops := ops_undo_inode hcsum he
  have hlen : (wordsAt (nowOf m) alterPi).length = inodeWords := by simp [wordsAt]
  constructor
  · intro o ho a v hv
    rw [hops] at ho
    obtain ⟨k, hk, rfl⟩ | ⟨-, rfl⟩ := mem_ops_memcpyToPmemNocache ho
    · have hk : k < inodeWords := hlen ▸ hk
      simp only [MemOp.storedTo] at hv
      split_ifs at hv with he
      subst he
      refine ⟨mem_covered.mpr ⟨_, hx, List.mem_map.mpr ⟨k, List.mem_range.mpr hk, rfl⟩⟩, ?_⟩
      rw [← Option.some.inj hv]
      simpa [wordsAt] using hback k hk
    · cases hv
  · intro a ha
    obtain ⟨k, hk, rfl⟩ := List.mem_map.mp ha
    have hk : k < inodeWords := List.mem_range.mp hk
    obtain ⟨-, -, hsure⟩ :=
      memcpyToPmemNocache_spec cfg pi (wordsAt (nowOf m) alterPi) m (k := k) (hlen.symm ▸ hk)
    have hold : (wordsAt (nowOf m) alterPi)[k] = old (pi + 8 * k) := by
      simpa [wordsAt] using hback k hk
    rw [Prog.after, hops, ← hold]
    exact hsure h

/-- Rolling back one entry: what is stored are old values, and they stay. -/
theorem novaUndoLiteJournalEntry_prompt (h : cfg.supportClwb = false)
    (hcopy : cfg.metadataCsum = true → cfg.copyFences = true) {items : List Item}
    (hfits : Fits cfg j items) {it : Item} (hit : it ∈ items) {c : ℕ} {m : Memory}
    (he : EntryAt cfg (nowOf m) c it.type it.data1 (it.data2 old))
    (hback : it.Backed old (nowOf m)) :
    StoresOld old items ((novaUndoLiteJournalEntry cfg c).ops m) ∧
      ∀ a ∈ it.words, ((novaUndoLiteJournalEntry cfg c).after m a).Sure (old a) := by
  cases it with
  | field x =>
    obtain ⟨hold, hsure⟩ := novaUndoLiteJournalEntry_field h hit he
    refine ⟨hold, fun a ha => ?_⟩
    obtain rfl : a = wordOf x := by simpa [Item.words] using ha
    exact hsure
  | inode pi alterPi =>
    have hcsum := hfits.mode _ hit rfl
    exact novaUndoLiteJournalEntry_inode (hcopy hcsum) hcsum hit he hback

theorem undoEntries_prompt (h : cfg.supportClwb = false)
    (hcopy : cfg.metadataCsum = true → cfg.copyFences = true) {items : List Item} {f : ℕ → ℕ}
    (hfits : Fits cfg j items) (hback : ∀ it ∈ items, it.Backed old f) (rest : List Item)
    (hsub : ∀ it ∈ rest, it ∈ items) (hshort : rest.length < novaMaxJournalLength) (fuel i : ℕ)
    (hfuel : rest.length ≤ fuel) (m : Memory) (hm : Kept f items m)
    (htail : f (j.pair + 8) = j.slot (i + rest.length)) (hrec : Recorded cfg j old f i rest) :
    (undoEntries cfg j.pair fuel (j.slot i)).val m = true ∧
      StoresOld old items ((undoEntries cfg j.pair fuel (j.slot i)).ops m) ∧
      ∀ a ∈ covered rest, ((undoEntries cfg j.pair fuel (j.slot i)).after m a).Sure (old a) := by
  have hown : ∀ a, j.Own a → a ∉ covered items := fun a ha => hfits.own_uncovered ha
  induction rest generalizing fuel i m with
  | nil =>
    have ht : (m (j.pair + 8)).now = j.slot i :=
      (hm _ (hown _ (Or.inr (Or.inr rfl)))).now_eq.trans htail
    cases fuel <;>
    · refine ⟨by simp [undoEntries, ht], ?_, fun a ha => by simp [covered] at ha⟩
      intro o ho
      simp [undoEntries, ht] at ho
  | cons it rest ih =>
    obtain ⟨fuel, rfl⟩ : ∃ n, fuel = n + 1 := ⟨fuel - 1, by simp at hfuel; omega⟩
    have ht : (m (j.pair + 8)).now = j.slot (i + (rest.length + 1)) :=
      (hm _ (hown _ (Or.inr (Or.inr rfl)))).now_eq.trans htail
    have hne : j.slot i ≠ (m (j.pair + 8)).now := by
      rw [ht]
      exact j.slot_ne (by simp) hshort
    have hit : it ∈ items := hsub it (by simp)
    have hentry : EntryAt cfg (nowOf m) (j.slot i) it.type it.data1 (it.data2 old) :=
      EntryAt.congr (hrec 0 (by simp)) fun b hb =>
        (hm _ (hown _ (j.slot_own i hb))).now_eq
    have hbacked : it.Backed old (nowOf m) := (hback it hit).congr fun a ha =>
      (hm a (hfits.replica_uncovered hit ha)).now_eq
    obtain ⟨hold, hsure⟩ := novaUndoLiteJournalEntry_prompt h hcopy hfits hit hentry hbacked
    obtain ⟨hval, hold', hsure'⟩ := ih (fun it' hit => hsub it' (by simp [hit]))
      (by simp at hshort; omega) fuel (i + 1) (by simp at hfuel; omega)
      ((novaUndoLiteJournalEntry cfg (j.slot i)).after m) (hm.after_exec hold)
      (by rw [htail]; simp [Nat.add_comm, Nat.add_left_comm]) hrec.tail
    have hprog : undoEntries cfg j.pair (fuel + 1) (j.slot i) = (do
        let tail ← load (j.pair + 8)
        if j.slot i = tail then return true
        novaUndoLiteJournalEntry cfg (j.slot i)
        undoEntries cfg j.pair fuel (j.slot (i + 1))) := by
      rw [undoEntries, j.nextLiteJournal_slot]
    simp only [hprog, Prog.val_bind, Prog.ops_bind, Prog.after_bind, Prog.val_load, Prog.ops_load,
      Prog.after_load, if_neg hne, List.nil_append]
    refine ⟨hval, hold.append hold', fun a ha => ?_⟩
    by_cases hr : a ∈ covered rest
    · exact hsure' a hr
    · -- a later entry stores at most the same value again
      have ha : a ∈ it.words := (List.mem_append.mp ha).resolve_right hr
      intro w hw
      obtain hw | ⟨o, ho, hv⟩ := mayHold_of_exec hw
      · exact hsure a ha w hw
      · exact (hold' o ho _ w hv).2

/-- A failure during recovery does no harm: a second recovery ends as the first would have. -/
def Restartable (cfg : Config) (j : Journal) (old : ℕ → ℕ) (items : List Item) (f : ℕ → ℕ) : Prop :=
  ∀ xs, xs <+: (recoverJournal cfg j.pair).ops (restart f) →
    ∀ g, Leaves (exec lineOf (restart f) xs) g →
      ∀ a, ((recoverJournal cfg j.pair).after (restart g) a).Sure (rollBack j old items f a)

structure Interrupted (cfg : Config) (j : Journal) (old : ℕ → ℕ) (items : List Item) (i : ℕ)
    (f : ℕ → ℕ) : Prop where
  fits : Fits cfg j items
  head : f j.pair = j.slot i
  tail : f (j.pair + 8) = j.slot (i + items.length)
  entries : Recorded cfg j old f i items
  backed : ∀ it ∈ items, it.Backed old f

/-- An image in which only covered words have changed is as good to start from. -/
theorem Interrupted.recovers_again {items : List Item} {i : ℕ} {f g : ℕ → ℕ}
    (h : Interrupted cfg j old items i f) (hg : ∀ a ∉ covered items, g a = f a) (a : ℕ) :
    ((recoverJournal cfg j.pair).after (restart g) a).Sure (rollBack j old items f a) := by
  have hown : ∀ x, j.Own x → g x = f x := fun x hx => hg x (h.fits.own_uncovered hx)
  have hhead : g j.pair = f j.pair := hown _ (Or.inr (Or.inl rfl))
  have hroll : rollBack j old items g a = rollBack j old items f a := by
    unfold rollBack
    split_ifs with h₁ h₂
    · exact hhead
    · rfl
    · exact hg a h₂
  rw [← hroll]
  refine (recoverJournal_spec old h.fits (hhead.trans h.head)
    ((hown _ (Or.inr (Or.inr rfl))).trans h.tail) (fun k hk => ?_) fun it hit => ?_).2 a
  · exact (h.entries k hk).congr fun b hb => hown _ (j.slot_own (i + k) hb)
  · exact (h.backed it hit).congr fun x hx => hg x (h.fits.replica_uncovered hit hx)

/-- An image in which the journal is empty and the covered words are rolled back. -/
theorem Interrupted.recovered {items : List Item} {i : ℕ} {f g : ℕ → ℕ}
    (h : Interrupted cfg j old items i f) (hhead : g j.pair = j.slot i)
    (htail : g (j.pair + 8) = j.slot i) (hold : ∀ a ∈ covered items, g a = old a)
    (hg : ∀ a ∉ covered items, a ≠ j.pair + 8 → g a = f a) (a : ℕ) :
    ((recoverJournal cfg j.pair).after (restart g) a).Sure (rollBack j old items f a) := by
  have hnil : Fits cfg j [] := ⟨by decide, by simp, by simp, by simp, by simp⟩
  have hroll : rollBack j old [] g a = rollBack j old items f a := by
    unfold rollBack
    by_cases h₁ : a = j.pair + 8
    · rw [if_pos h₁, if_pos h₁, hhead, h.head]
    · rw [if_neg h₁, if_neg h₁, if_neg (by simp [covered])]
      split_ifs with h₂
      · exact hold a h₂
      · exact hg a h₂ h₁
  rw [← hroll]
  exact (recoverJournal_spec old hnil hhead htail (fun k hk => by simp at hk) (by simp)).2 a

theorem Interrupted.ops_recoverJournal {items : List Item} {i : ℕ} {f : ℕ → ℕ}
    (h : Interrupted cfg j old items i f) (hne : items ≠ []) :
    (recoverJournal cfg j.pair).ops (restart f) =
      (undoEntries cfg j.pair novaMaxJournalLength (j.slot i)).ops (restart f) ++
        (storePointer cfg j.pair 8 (j.slot i)).ops
          ((undoEntries cfg j.pair novaMaxJournalLength (j.slot i)).after (restart f)) := by
  have hhead : (restart f j.pair).now = j.slot i := h.head
  have htail : (restart f (j.pair + 8)).now = j.slot (i + items.length) := h.tail
  have hslot : ¬j.slot i = j.slot (i + items.length) :=
    j.slot_ne (List.length_pos_iff.mpr hne) h.fits.short
  obtain ⟨hcheck, hnop⟩ := novaCheckJournalEntries_spec items novaMaxJournalLength i (restart f)
    (Nat.le_of_lt h.fits.short) h.fits.short h.tail h.entries
  obtain ⟨hended, hun⟩ := undoEntries_spec items novaMaxJournalLength i (restart f)
    (Nat.le_of_lt h.fits.short) h.fits h.tail h.entries h.backed
  have hpair : ((undoEntries cfg j.pair novaMaxJournalLength (j.slot i)).after (restart f)
      j.pair).now = j.slot i :=
    (hun.now_of_not_mem _ (h.fits.own_uncovered (Or.inr (Or.inl rfl)))).trans h.head
  have hsame : (novaCheckJournalEntries cfg j.pair novaMaxJournalLength (j.slot i)).after
      (restart f) = restart f := by
    rw [Prog.after, hnop, exec_nil]
  simp only [recoverJournal, novaRecoverLiteJournal, storePointer, Prog.ops_bind, Prog.val_load,
    Prog.ops_load, Prog.after_load, hhead, htail, if_neg hslot, hcheck, hnop, hsame, hended,
    if_true, hpair, Prog.val_bind, Prog.after_bind, Prog.ops_pure, List.nil_append,
    List.append_nil]

/-- With synchronous flushes and copies, recovery can be repeated as often as it fails. -/
theorem restartable_of_prompt (h : cfg.supportClwb = false)
    (hcopy : cfg.metadataCsum = true → cfg.copyFences = true) {items : List Item} {i : ℕ}
    {f : ℕ → ℕ}
    (hi : Interrupted cfg j old items i f) : Restartable cfg j old items f := by
  have hstart : Kept f items (restart f) := fun a _ => Cell.sure_rest (f a)
  intro xs hx g hg a
  by_cases hne : items = []
  · subst hne
    have hnop : (recoverJournal cfg j.pair).ops (restart f) = [] := by
      have hhead : (restart f j.pair).now = j.slot i := hi.head
      have htail : (restart f (j.pair + 8)).now = j.slot i := hi.tail
      simp [recoverJournal, hhead, htail]
    obtain rfl : xs = [] := List.prefix_nil.mp (hnop ▸ hx)
    exact hi.recovers_again (fun x _ => Cell.sure_rest (f x) _ (hg x)) a
  · rw [hi.ops_recoverJournal hne] at hx
    obtain ⟨-, hold, hsure⟩ := undoEntries_prompt h hcopy hi.fits hi.backed items
      (fun it hit => hit) hi.fits.short novaMaxJournalLength i (Nat.le_of_lt hi.fits.short)
      (restart f)
      hstart hi.tail hi.entries
    obtain hx | ⟨ys, rfl, hy⟩ := Prog.prefix_append_cases hx
    · -- in the loop: the journal is as it was
      have hk := hstart.after_exec (hold.of_prefix hx)
      exact hi.recovers_again (fun x hxc => hk x hxc _ (hg x)) a
    · -- after it: every word has its old value, and the tail is one of two
      have hk : Kept f items ((undoEntries cfg j.pair novaMaxJournalLength (j.slot i)).after
        (restart f)) := hstart.after_exec hold
      rw [exec_append, ← Prog.after] at hg
      have hwithin := within_storePointer cfg j.pair 8 (j.slot i)
      have htail := (storePointer_spec cfg (j.slot i) (show 8 < cachelineSize by decide)
        (hk _ (hi.fits.own_uncovered (Or.inr (Or.inr rfl))))).1 ys hy _ (hg _)
      have hkept : ∀ x ∉ covered items, x ≠ j.pair + 8 → g x = f x := fun x hxc hxt =>
        hwithin.sure hxt (hk x hxc) hy _ (hg x)
      have hcov : ∀ x ∈ covered items, g x = old x := fun x hxc =>
        hwithin.sure (fun he => hi.fits.own_uncovered (Or.inr (Or.inr he)) hxc) (hsure x hxc) hy _
          (hg x)
      obtain htail | htail := htail
      · refine hi.recovers_again (fun x hxc => ?_) a
        by_cases hxt : x = j.pair + 8
        · rw [hxt, htail]
        · exact hkept x hxc hxt
      · refine hi.recovered ?_ htail hcov hkept a
        rw [hkept _ (hi.fits.own_uncovered (Or.inr (Or.inl rfl))) (by omega), hi.head]

end Synchronous

section Asynchronous

variable {cfg : Config} {j : Journal} {old : ℕ → ℕ} {items : List Item} {i : ℕ} {f : ℕ → ℕ}

/-- If nothing of the loop is waited for, the tail may be set back and a word not. -/
theorem Interrupted.not_restartable (h : Interrupted cfg j old items i f)
    (hlazy : ∀ o ∈ (undoEntries cfg j.pair novaMaxJournalLength (j.slot i)).ops (restart f), o.Lazy)
    {a : ℕ} (ha : a ∈ covered items) (hdiff : f a ≠ old a) : ¬Restartable cfg j old items f := by
  intro hr
  have hne : items ≠ [] := fun he => by simp [he, covered] at ha
  have hown : ¬j.Own a := fun ho => h.fits.own_uncovered ho ha
  let xs := (undoEntries cfg j.pair novaMaxJournalLength (j.slot i)).ops (restart f) ++
    [MemOp.store (j.pair + 8) (j.slot i)]
  -- a failure that loses the word but not the tail
  let g : ℕ → ℕ := fun x => if x = a then f a else (exec lineOf (restart f) xs x).now
  have hx : xs <+: (recoverJournal cfg j.pair).ops (restart f) := by
    rw [h.ops_recoverJournal hne]
    refine (List.prefix_append_right_inj _).mpr ?_
    simp [storePointer]
  have hg : Leaves (exec lineOf (restart f) xs) g := by
    intro x
    simp only [g]
    split_ifs with hxa
    · subst hxa
      refine mayHold_of_lazy (fun o ho => ?_) (Or.inl rfl)
      obtain ho | ho := List.mem_append.mp ho
      · exact hlazy o ho
      · obtain rfl := List.mem_singleton.mp ho
        trivial
    · exact Cell.mayHold_now _
  have htail : g (j.pair + 8) = j.slot i := by
    simp only [g, if_neg fun he : j.pair + 8 = a => hown (Or.inr (Or.inr he.symm)), xs, exec_append]
    simp [exec_singleton, MemOp.onCell]
  have hhead : g j.pair = j.slot i := by
    obtain ⟨-, hun⟩ := undoEntries_spec items novaMaxJournalLength i (restart f)
      (Nat.le_of_lt h.fits.short) h.fits h.tail h.entries h.backed
    have hpair : ((undoEntries cfg j.pair novaMaxJournalLength (j.slot i)).after (restart f)
        j.pair).now = j.slot i :=
      (hun.now_of_not_mem _ (h.fits.own_uncovered (Or.inr (Or.inl rfl)))).trans h.head
    simp only [g, if_neg fun he : j.pair = a => hown (Or.inr (Or.inl he.symm)), xs]
    rw [exec_append, ← Prog.after]
    simpa [exec_singleton, MemOp.onCell] using hpair
  have hclean : (recoverJournal cfg j.pair).after (restart g) = restart g := by
    have h₁ : (restart g j.pair).now = j.slot i := hhead
    have h₂ : (restart g (j.pair + 8)).now = j.slot i := htail
    simp [recoverJournal, h₁, h₂]
  have hsure := hr xs hx g hg a
  rw [hclean, rollBack, if_neg fun he => hown (Or.inr (Or.inr he)), if_pos ha] at hsure
  have hga : g a = old a := hsure.now_eq
  exact hdiff (by simpa [g] using hga)

theorem lazy_flushOp (h : cfg.supportClwb = true) (x : ℕ) : (flushOp cfg x).Lazy := by
  rw [flushOp, h, if_pos rfl]
  trivial

theorem Interrupted.ops_undoEntries {it : Item} (h : Interrupted cfg j old [it] i f) (fuel : ℕ) :
    (undoEntries cfg j.pair (fuel + 2) (j.slot i)).ops (restart f) =
      (novaUndoLiteJournalEntry cfg (j.slot i)).ops (restart f) := by
  have htail : (restart f (j.pair + 8)).now = j.slot (i + 1) := h.tail
  have hne : ¬j.slot i = j.slot (i + 1) := j.slot_ne (by decide) (by decide)
  have hentry : EntryAt cfg (nowOf (restart f)) (j.slot i) it.type it.data1 (it.data2 old) :=
    h.entries 0 (by simp)
  have hun := novaUndoLiteJournalEntry_undone (h.fits.mode it (by simp)) hentry
    (h.backed it (by simp))
  have htail' : ((novaUndoLiteJournalEntry cfg (j.slot i)).after (restart f) (j.pair + 8)).now =
      j.slot (i + 1) := by
    refine (hun.now_of_not_mem _ fun hw => ?_).trans h.tail
    exact h.fits.own_uncovered (Or.inr (Or.inr rfl)) (mem_covered.mpr ⟨_, by simp, hw⟩)
  rw [undoEntries, j.nextLiteJournal_slot, undoEntries]
  simp only [Prog.ops_bind, Prog.ops_load, Prog.val_load, Prog.after_load, htail, if_neg hne,
    List.nil_append, htail', if_true, Prog.ops_pure, List.append_nil]

theorem lazy_undo_field (hclwb : cfg.supportClwb = true) {x : ℕ}
    (h : Interrupted cfg j old [.field x] i f) :
    ∀ o ∈ (novaUndoLiteJournalEntry cfg (j.slot i)).ops (restart f), o.Lazy := by
  have hentry : EntryAt cfg (nowOf (restart f)) (j.slot i) journalEntry (wordOf x)
      (old (wordOf x)) := h.entries 0 (by simp)
  intro o ho
  rw [ops_undo_field hentry] at ho
  obtain rfl | ho := List.mem_cons.mp ho
  · trivial
  · obtain ⟨x, rfl⟩ | ⟨hf, -⟩ := mem_ops_novaFlushBuffer ho
    · exact lazy_flushOp hclwb x
    · cases hf

theorem lazy_undo_inode (hfence : cfg.copyFences = false) {pi alterPi : ℕ}
    (h : Interrupted cfg j old [.inode pi alterPi] i f) :
    ∀ o ∈ (novaUndoLiteJournalEntry cfg (j.slot i)).ops (restart f), o.Lazy := by
  have hentry : EntryAt cfg (nowOf (restart f)) (j.slot i) journalInode pi alterPi :=
    h.entries 0 (by simp)
  have hcsum := h.fits.mode (.inode pi alterPi) (by simp) rfl
  intro o ho
  rw [ops_undo_inode hcsum hentry] at ho
  obtain ⟨k, hk, rfl⟩ | ⟨hf, -⟩ := mem_ops_memcpyToPmemNocache ho
  · trivial
  · rw [hfence] at hf
    cases hf

/-- A transaction that is open and has changed all its words. -/
theorem exists_interrupted (hfits : Fits cfg j items) (hback : ∀ it ∈ items, it.Backed old old) :
    ∃ f, Interrupted cfg j old items 0 f ∧ ∀ a ∈ covered items, f a = old a + 1 := by
  let W : ℕ → Prop := fun a => a ∈ covered items ∨ ∃ it ∈ items, a ∈ it.replica
  have hW : ∀ a, W a → ¬j.Own a := by
    rintro a (ha | ⟨it, hit, ha⟩)
    · obtain ⟨it, hit, hw⟩ := mem_covered.mp ha
      exact hfits.own it hit a hw
    · exact hfits.replica_own it hit a ha
  have hresp : Respects cfg j W old old items (pure ()) :=
    ⟨hfits, hW, fun a ha => Or.inl ha, fun it hit a ha => Or.inr ⟨it, hit, ha⟩, hback, .pure _ _,
      fun _ _ _ => rfl, fun _ hm a ha => (hm a (Or.inl ha)).due⟩
  have hquiet : Quiet j W old 0 (j.fresh old) := by
    have hq := j.quiet_fresh W old
    refine ⟨hq.head, hq.tail, fun a ha => ?_⟩
    have hne : ¬(a = j.pair ∨ a = j.pair + 8) := fun he => hW a ha (Or.inr he)
    have := hq.words a ha
    rwa [show nowOf (j.fresh old) a = old a from if_neg hne] at this
  obtain ⟨-, -, hpub, hwords⟩ := createTransaction_spec (V := fun _ => False) hresp _ hquiet.idle
  generalize (createTransaction cfg j.pair items).after (j.fresh old) = m at hpub hwords
  have hown : ∀ a, j.Own a → a ∉ covered items := fun a ha hc => hW a (Or.inl hc) ha
  refine ⟨fun a => if a ∈ covered items then old a + 1 else nowOf m a,
    ⟨hfits, ?_, ?_, fun k hk => ?_, fun it hit => ?_⟩, fun a ha => if_pos ha⟩
  · rw [if_neg (hown _ (Or.inr (Or.inl rfl)))]
    exact hpub.head.now_eq
  · rw [if_neg (hown _ (Or.inr (Or.inr rfl)))]
    exact hpub.tail.now_eq
  · exact (hpub.entries.1 k hk).congr fun b hb => if_neg (hown _ (j.slot_own _ hb))
  · refine (hback it hit).congr fun a ha => ?_
    rw [if_neg (hfits.replica_uncovered hit ha)]
    exact (hwords a (Or.inr ⟨it, hit, ha⟩)).now_eq

end Asynchronous

/-- Recovery can be repeated, whatever the journal holds, exactly where flushes are synchronous and,
if inodes have replicas, the kernel's copy ends with a fence. -/
theorem restartable_iff (cfg : Config) :
    (∀ (j : Journal) (old : ℕ → ℕ) (items : List Item) (i : ℕ) (f : ℕ → ℕ),
      Interrupted cfg j old items i f → Restartable cfg j old items f) ↔
      cfg.supportClwb = false ∧ (cfg.metadataCsum = true → cfg.copyFences = true) := by
  constructor
  · intro h
    have hlost : ∀ {it : Item}, Fits cfg sampleJournal [it] → it.Backed (fun _ => 0) (fun _ => 0) →
        (∀ f, Interrupted cfg sampleJournal (fun _ => 0) [it] 0 f → ∀ o ∈
          (novaUndoLiteJournalEntry cfg (sampleJournal.slot 0)).ops (restart f), o.Lazy) →
        ∀ a ∈ it.words, False := by
      intro it hfits hback hlazy a ha
      obtain ⟨f, hf, hnew⟩ := exists_interrupted hfits (by simpa using hback)
      have hc : a ∈ covered [it] := mem_covered.mpr ⟨it, by simp, ha⟩
      refine hf.not_restartable ?_ hc (by simp [hnew a hc]) (h _ _ _ _ _ hf)
      rw [show novaMaxJournalLength = 126 + 2 from rfl, hf.ops_undoEntries]
      exact hlazy f hf
    constructor
    · cases hclwb : cfg.supportClwb with
      | false => rfl
      | true =>
        have hown : ¬sampleJournal.Own 819200 :=
          Journal.Clear.not_own (n := 1) (by decide) (Nat.le_refl _) (by decide)
        have hfits : Fits cfg sampleJournal [.field 819200] :=
          ⟨by decide, by simpa [Item.words, wordOf] using hown, by simp [Item.replica],
            by simp [Item.replica], by simp [Item.type, journalInode, journalEntry]⟩
        exact (hlost hfits trivial (fun f hf => lazy_undo_field hclwb hf) 819200 (by decide)).elim
    · intro hcsum
      cases hfence : cfg.copyFences with
      | true => rfl
      | false =>
        have hown : ∀ a, 1228800 ≤ a → a < 1228800 + 8192 → ¬sampleJournal.Own a := fun a =>
          Journal.Clear.not_own (by decide)
        have hfits : Fits cfg sampleJournal [.inode 1228800 1232896] := by
          refine ⟨by decide, ?_, ?_, ?_, fun _ _ _ => hcsum⟩ <;>
            simp only [List.mem_singleton, forall_eq, Item.words, Item.replica, List.mem_map,
              List.mem_range, inodeWords]
          · rintro a ⟨k, hk, rfl⟩
            exact hown _ (by omega) (by omega)
          · rintro a ⟨k, hk, rfl⟩
            exact hown _ (by omega) (by omega)
          · rintro a ⟨k, hk, rfl⟩ ⟨k', hk', he⟩
            omega
        exact (hlost hfits (fun _ _ => rfl) (fun f hf => lazy_undo_inode hfence hf) 1228800
          (by decide)).elim
  · rintro ⟨hclwb, hcopy⟩ j old items i f hi
    exact restartable_of_prompt hclwb hcopy hi

end Squint.Nova
