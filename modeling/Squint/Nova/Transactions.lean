import Squint.Nova.Recovery

/-! A journalled transaction is all or nothing: wherever a failure stops it, recovery leaves the
words it covers as they were before or as they are after it. -/
namespace Squint.Nova
open Squint.Lib

/-- The entry for an item at `currP`. -/
def Item.append (cfg : Config) (currP : ℕ) : Item → Code ℕ
  | .field a => novaAppendEntryJournal cfg currP a
  | .inode pi alterPi => novaAppendReplicaInodeJournal cfg currP ⟨pi, alterPi, true⟩

def appendItems (cfg : Config) : ℕ → List Item → Code ℕ
  | currP, [] => return currP
  | currP, it :: items => do
    let currP ← it.append cfg currP
    appendItems cfg currP items

/-- The common form of the functions that create a transaction. -/
def createTransaction (cfg : Config) (pair : ℕ) (items : List Item) : Code (Option ℕ) := do
  match ← journalStart pair with
  | none => return none
  | some temp =>
    let temp ← appendItems cfg temp items
    some <$> journalPublish cfg pair temp

/-- The common form of their callers. -/
def journalled (cfg : Config) (pair : ℕ) (create : Code (Option ℕ)) (updates : Code Unit) :
    Code Bool := do
  match ← create with
  | none => return false
  | some tail =>
    updates
    persistentBarrier
    novaCommitLiteTransaction cfg pair tail

/-- With what some of them do afterwards. -/
def transaction (cfg : Config) (pair : ℕ) (create : Code (Option ℕ)) (updates finish : Code Unit) :
    Code Bool := do
  let ok ← journalled cfg pair create updates
  if ok then finish
  return ok

section Append

variable {cfg : Config} {j : Journal} {old : ℕ → ℕ} {m : Memory}

@[simp] theorem nowOf_store (a v x : ℕ) :
    nowOf ((store a v : Code Unit).after m) x = if x = a then v else nowOf m x := by
  by_cases h : x = a
  · simp [nowOf, Prog.after, exec_singleton, MemOp.onCell, h]
  · simp [nowOf, Prog.after, exec_singleton, MemOp.onCell, h, Ne.symm h]

@[simp] theorem nowOf_storeBytes (a size v x : ℕ) :
    nowOf ((storeBytes a size v).after m) x =
      if x = wordOf a then setBytes (nowOf m (wordOf a)) (a % 8) size v else nowOf m x := by
  simp [storeBytes]
  rfl

theorem within_storeBytes {R : ℕ → Prop} {a size v : ℕ} (h : R (wordOf a)) :
    Prog.Within R (storeBytes a size v) :=
  Prog.Within.bind (Prog.Within.load R _) fun _ => Prog.Within.store h

theorem entryCsum_lt (cfg : Config) (w₀ w₁ w₂ w₃ : ℕ) : entryCsum cfg w₀ w₁ w₂ w₃ < 2 ^ 32 :=
  BitVec.isLt _

theorem entryCsum_congr (cfg : Config) (w₀ w₁ w₂ : ℕ) {w₃ w₃' : ℕ}
    (h : w₃ % 2 ^ 32 = w₃' % 2 ^ 32) :
    entryCsum cfg w₀ w₁ w₂ w₃ = entryCsum cfg w₀ w₁ w₂ w₃' := by
  unfold entryCsum
  rw [leBytes_congr (n := 4) h]

def writeEntry (cfg : Config) (c ty d₁ : ℕ) (value : Code ℕ) : Code ℕ := do
  store c ty
  storeBytes (c + 24) 4 0
  store (c + 8) d₁
  let d₂ ← value
  store (c + 16) d₂
  novaUpdateJournalEntryCsum cfg c
  return nextLiteJournal c

/-- Where the second half of an entry comes from. -/
def Item.value : Item → Code ℕ
  | .field a => load (wordOf a)
  | .inode _ alterPi => pure alterPi

theorem Item.append_eq (it : Item) (c : ℕ) :
    it.append cfg c = writeEntry cfg c it.type it.data1 it.value := by
  cases it <;> rfl

theorem Item.ops_value (it : Item) (m : Memory) : it.value.ops m = [] := by
  cases it <;> rfl

theorem wordOf_add {c : ℕ} (hc : c % 8 = 0) (b : ℕ) : wordOf (c + b) = c + wordOf b := by
  unfold wordOf
  omega

theorem within_novaUpdateJournalEntryCsum {R : ℕ → Prop} {c : ℕ} (hc : c % 8 = 0) (h : R (c + 24)) :
    Prog.Within R (novaUpdateJournalEntryCsum cfg c) := by
  refine .bind (.load R _) fun _ => .bind (.load R _) fun _ => .bind (.load R _) fun _ =>
    .bind (.load R _) fun _ => within_storeBytes ?_
  rwa [wordOf_add hc]

theorem within_append (cfg : Config) (it : Item) {c : ℕ} (hc : c % 8 = 0) :
    Prog.Within (fun a => c ≤ a ∧ a < c + entrySize) (it.append cfg c) := by
  have hin : ∀ b < entrySize, c ≤ c + b ∧ c + b < c + entrySize := fun b hb => by omega
  rw [Item.append_eq]
  refine .bind (.store (hin 0 (by decide))) fun _ => .bind (within_storeBytes ?_) fun _ =>
    .bind (.store (hin 8 (by decide))) fun _ => .bind ?_ fun _ =>
    .bind (.store (hin 16 (by decide))) fun _ =>
    .bind (within_novaUpdateJournalEntryCsum hc (hin 24 (by decide))) fun _ => .pure _ _
  · rw [wordOf_add hc]
    exact hin 24 (by decide)
  · intro m o ho
    rw [Item.ops_value] at ho
    cases ho

theorem nowOf_novaUpdateJournalEntryCsum {c : ℕ} (hc : c % 8 = 0) (x : ℕ) :
    nowOf ((novaUpdateJournalEntryCsum cfg c).after m) x =
      if x = c + 24 then
        setBytes (nowOf m (c + 24)) 4 4 (entryCsum cfg (nowOf m c) (nowOf m (c + 8))
          (nowOf m (c + 16)) (nowOf m (c + 24)))
      else nowOf m x := by
  have hw : wordOf (c + 28) = c + 24 := wordOf_add hc 28
  have hb : (c + 28) % 8 = 4 := by omega
  simp only [novaUpdateJournalEntryCsum, Prog.after_bind, Prog.val_load, Prog.after_load,
    nowOf_storeBytes, hw, hb]
  rfl

theorem entryAt_csum {c ty d₁ d₂ : ℕ} (hc : c % 8 = 0) (h₀ : nowOf m c = ty)
    (h₁ : nowOf m (c + 8) = d₁) (h₂ : nowOf m (c + 16) = d₂) :
    EntryAt cfg (nowOf ((novaUpdateJournalEntryCsum cfg c).after m)) c ty d₁ d₂ := by
  refine ⟨?_, ?_, ?_, ?_⟩
  · rw [nowOf_novaUpdateJournalEntryCsum hc, if_neg (by omega), h₀]
  · rw [nowOf_novaUpdateJournalEntryCsum hc, if_neg (by omega), h₁]
  · rw [nowOf_novaUpdateJournalEntryCsum hc, if_neg (by omega), h₂]
  · rw [nowOf_novaUpdateJournalEntryCsum hc, if_pos rfl, h₀, h₁, h₂, getBytes_setBytes,
      Nat.mod_eq_of_lt (entryCsum_lt cfg _ _ _ _)]
    exact entryCsum_congr cfg ty d₁ d₂ (setBytes_mod _ 4 4 _).symm

theorem entryAt_append (cfg : Config) (m : Memory) (it : Item) {c : ℕ} (hc : c % 8 = 0)
    (hold : ∀ a ∈ it.words, nowOf m a = old a)
    (hout : ∀ a ∈ it.words, a < c ∨ c + entrySize ≤ a) :
    EntryAt cfg (nowOf ((it.append cfg c).after m)) c it.type it.data1 (it.data2 old) := by
  have hw : wordOf (c + 24) = c + 24 := wordOf_add hc 24
  rw [Item.append_eq]
  simp only [writeEntry, Prog.after_bind, Prog.after_pure]
  -- the second half is read before it is written, from a word outside the entry
  have hval : ∀ m' : Memory, (∀ a, (a < c ∨ c + entrySize ≤ a) → nowOf m' a = nowOf m a) →
      it.value.val m' = it.data2 old := by
    intro m' hm'
    cases it with
    | field a =>
      have ha : wordOf a ∈ (Item.field a).words := by simp [Item.words]
      exact (hm' _ (hout _ ha)).trans (hold _ ha)
    | inode pi alterPi => rfl
  have hsame : ∀ m' : Memory, it.value.after m' = m' := by
    intro m'
    rw [Prog.after, Item.ops_value, exec_nil]
  rw [hval, hsame]
  · apply entryAt_csum hc
    · simp [hw]
    · simp
    · simp
  · intro a ha
    have h₀ : a ≠ c := by unfold entrySize at ha; omega
    have h₁ : a ≠ c + 8 := by unfold entrySize at ha; omega
    have h₂ : a ≠ c + 24 := by unfold entrySize at ha; omega
    simp [hw, h₀, h₁, h₂]

theorem val_append (it : Item) (c : ℕ) : (it.append cfg c).val m = nextLiteJournal c := by
  rw [Item.append_eq]
  simp [writeEntry]

/-- The words of the `n` entries from place `i` on. -/
def Journal.InSlots (j : Journal) (i n a : ℕ) : Prop :=
  ∃ k < n, j.slot (i + k) ≤ a ∧ a < j.slot (i + k) + entrySize

theorem Journal.slot_mod (j : Journal) (i : ℕ) : j.slot i % 8 = 0 := by
  have h := j.page_aligned
  unfold Journal.slot
  simp only [pageSize, entrySize] at *
  omega

theorem Journal.InSlots.own {j : Journal} {i n a : ℕ} (h : j.InSlots i n a) : j.Own a := by
  obtain ⟨k, -, h₁, h₂⟩ := h
  have := j.slot_own (i + k) (b := a - j.slot (i + k)) (by omega)
  rwa [Nat.add_sub_cancel' h₁] at this

/-- An entry is not written over before the ring is full. -/
theorem Journal.InSlots.not_slot {j : Journal} {i n b : ℕ} (hb : b < entrySize)
    (hn : n < novaMaxJournalLength) : ¬j.InSlots (i + 1) n (j.slot i + b) := by
  rintro ⟨k, hk, h₁, h₂⟩
  unfold Journal.slot at h₁ h₂
  simp only [entrySize, novaMaxJournalLength] at *
  omega

theorem within_appendItems (items : List Item) (i : ℕ) :
    Prog.Within (j.InSlots i items.length) (appendItems cfg (j.slot i) items) := by
  induction items generalizing i with
  | nil => exact .pure _ _
  | cons it items ih =>
    intro m o ho
    rw [appendItems, Prog.ops_bind, val_append, j.nextLiteJournal_slot] at ho
    obtain ho | ho := List.mem_append.mp ho
    · intro a v hv
      exact ⟨0, by simp, within_append cfg it (j.slot_mod i) m o ho a v hv⟩
    · intro a v hv
      obtain ⟨k, hk, hin⟩ := ih (i + 1) _ o ho a v hv
      exact ⟨k + 1, by simp; omega, by rwa [show i + (k + 1) = i + 1 + k by omega]⟩

theorem val_appendItems (items : List Item) (i : ℕ) (m : Memory) :
    (appendItems cfg (j.slot i) items).val m = j.slot (i + items.length) := by
  induction items generalizing i m with
  | nil => rfl
  | cons it items ih =>
    rw [appendItems, Prog.val_bind, val_append, j.nextLiteJournal_slot, ih, List.length_cons]
    congr 1
    omega

theorem recorded_appendItems (items : List Item) (i : ℕ) (m : Memory)
    (hn : items.length < novaMaxJournalLength) (hown : ∀ it ∈ items, ∀ a ∈ it.words, ¬j.Own a)
    (hold : ∀ it ∈ items, ∀ a ∈ it.words, nowOf m a = old a) :
    Recorded cfg j old (nowOf ((appendItems cfg (j.slot i) items).after m)) i items := by
  induction items generalizing i m with
  | nil => exact fun k hk => by simp at hk
  | cons it items ih =>
    have hn' : items.length < novaMaxJournalLength := by simp at hn; omega
    have hone := within_append cfg it (j.slot_mod i)
    rw [appendItems, Prog.after_bind, val_append, j.nextLiteJournal_slot]
    intro k hk
    cases k with
    | zero =>
      -- the entries after this one are in other places
      refine (entryAt_append cfg m it (j.slot_mod i) (hold it (by simp))
        fun a ha => ?_).congr fun b hb => ?_
      · by_contra hin
        have := hown it (by simp) a ha
        have hslot := j.slot_own i (b := a - j.slot i) (by omega)
        rw [Nat.add_sub_cancel' (by omega)] at hslot
        exact this hslot
      · exact (within_appendItems items (i + 1)).now_after (Journal.InSlots.not_slot hb hn')
    | succ k =>
      have hrest := ih (i + 1) ((it.append cfg (j.slot i)).after m) hn'
        (fun it' hit => hown it' (by simp [hit])) fun it' hit a ha => by
          refine (hone.now_after fun hin => ?_).trans (hold it' (by simp [hit]) a ha)
          have hslot := j.slot_own i (b := a - j.slot i) (by omega)
          rw [Nat.add_sub_cancel' hin.1] at hslot
          exact hown it' (by simp [hit]) a ha hslot
      have := hrest k (by simp at hk; omega)
      rw [show i + 1 + k = i + (k + 1) by omega] at this
      simpa using this

end Append

section Publish

variable {cfg : Config} {j : Journal} {m : Memory}

/-- The words of the entries are in one of the two pieces that the batch flushes. -/
theorem Journal.InSlots.in_batch {j : Journal} {i n a : ℕ} (hn : n < novaMaxJournalLength)
    (h : j.InSlots i n a) :
    (j.slot i < j.slot (i + n) ∧ j.slot i ≤ a ∧ a < j.slot (i + n)) ∨
      (¬j.slot i < j.slot (i + n) ∧ j.slot i ≤ a ∧
        a < j.slot i + (pageSize - j.slot i % pageSize)) ∨
      (¬j.slot i < j.slot (i + n) ∧ j.slot (i + n) - j.slot (i + n) % pageSize ≤ a ∧
        a < j.slot (i + n) - j.slot (i + n) % pageSize + j.slot (i + n) % pageSize) := by
  obtain ⟨k, hk, h₁, h₂⟩ := h
  have hp := j.page_aligned
  unfold Journal.slot at *
  simp only [pageSize, entrySize, novaMaxJournalLength] at *
  omega

theorem within_novaFlushJournalInBatch (R : ℕ → Prop) (cfg : Config) (head tail : ℕ) :
    Prog.Within R (novaFlushJournalInBatch cfg head tail) := by
  unfold novaFlushJournalInBatch
  split_ifs
  · exact .bind (within_novaFlushBuffer R cfg _ _ _) fun _ => within_persistentBarrier R
  · exact .bind (within_novaFlushBuffer R cfg _ _ _) fun _ =>
      .bind (within_novaFlushBuffer R cfg _ _ _) fun _ => within_persistentBarrier R

/-- The batch brings every entry to the medium, also where the ring turns over. -/
theorem sure_novaFlushJournalInBatch {i n a : ℕ} (hn : n < novaMaxJournalLength)
    (ha : j.InSlots i n a) :
    ((novaFlushJournalInBatch cfg (j.slot i) (j.slot (i + n))).after m a).Sure (m a).now := by
  have hmod : ∀ x, x % pageSize < pageSize := fun x => Nat.mod_lt x (by decide)
  have hpage : pageSize + cachelineSize ≤ 2 ^ 32 := by decide
  unfold novaFlushJournalInBatch
  obtain ⟨hlt, h₁, h₂⟩ | ⟨hge, h₁, h₂⟩ | ⟨hge, h₁, h₂⟩ := ha.in_batch hn
  · rw [if_pos hlt, Prog.after_bind]
    have hlen : j.slot (i + n) - j.slot i + cachelineSize ≤ 2 ^ 32 := by
      unfold Journal.slot
      simp only [entrySize, novaMaxJournalLength, cachelineSize]
      omega
    have hr :
        ((novaFlushBuffer cfg (j.slot i) (j.slot (i + n) - j.slot i) false).after m a).Ready :=
      ready_novaFlushBuffer hlen h₁ (by omega)
    rw [← now_novaFlushBuffer]
    exact sure_persistentBarrier hr.due
  · rw [if_neg hge, Prog.after_bind, Prog.after_bind]
    have hr : ((novaFlushBuffer cfg (j.slot i) (pageSize - j.slot i % pageSize) false).after m
        a).Ready := ready_novaFlushBuffer (by omega) h₁ h₂
    rw [← now_novaFlushBuffer, ← now_novaFlushBuffer]
    exact sure_persistentBarrier (ready_exec hr
      ((within_novaFlushBuffer (fun _ => False) cfg _ _ _).unstored not_false)).due
  · rw [if_neg hge, Prog.after_bind, Prog.after_bind]
    rw [← now_novaFlushBuffer, ← now_novaFlushBuffer]
    have := hmod (j.slot (i + n))
    exact sure_persistentBarrier (ready_novaFlushBuffer (by omega) h₁ h₂).due

end Publish

/-- No transaction is open, and the words of `W` hold `s`, also after a failure. -/
structure Quiet (j : Journal) (W : ℕ → Prop) (s : ℕ → ℕ) (i : ℕ) (m : Memory) : Prop where
  head : (m j.pair).Sure (j.slot i)
  tail : (m (j.pair + 8)).Sure (j.slot i)
  words : ∀ a, W a → (m a).Sure (s a)

/-- The same before the words of `V` have been waited for. -/
structure Idle (j : Journal) (W V : ℕ → Prop) (s : ℕ → ℕ) (i : ℕ) (m : Memory) : Prop where
  head : (m j.pair).Sure (j.slot i)
  tail : (m (j.pair + 8)).Sure (j.slot i)
  words : ∀ a, W a → ¬V a → (m a).Sure (s a)
  due : ∀ a, W a → (m a).Due (s a)

/-- What a transaction over the words of `W` has to respect: of these its updates store only to
words that its items cover, and they write all of them back. -/
structure Respects (cfg : Config) (j : Journal) (W : ℕ → Prop) (old new : ℕ → ℕ) (items : List Item)
    (updates : Code Unit) : Prop where
  fits : Fits cfg j items
  outside : ∀ a, W a → ¬j.Own a
  covers : ∀ a ∈ covered items, W a
  replicas : ∀ it ∈ items, ∀ a ∈ it.replica, W a
  backed : ∀ it ∈ items, it.Backed old old
  within : updates.Within fun a => a ∈ covered items ∨ ¬(W a ∨ j.Own a)
  unchanged : ∀ a, W a → a ∉ covered items → new a = old a
  effect : ∀ m : Memory, (∀ a, W a → (m a).Sure (old a)) → ∀ a ∈ covered items,
    (updates.after m a).Due (new a)

/-- What a failure may leave of a transaction. -/
inductive Stage (cfg : Config) (j : Journal) (W V : ℕ → Prop) (old new : ℕ → ℕ) (items : List Item)
    (i : ℕ) (f : ℕ → ℕ) : Prop
  | before (head : f j.pair = j.slot i) (tail : f (j.pair + 8) = j.slot i)
      (words : ∀ a, W a → ¬V a → f a = old a)
  | during (head : f j.pair = j.slot i) (tail : f (j.pair + 8) = j.slot (i + items.length))
      (entries : Recorded cfg j old f i items) (backed : ∀ it ∈ items, it.Backed old f)
      (words : ∀ a, W a → a ∉ covered items → f a = old a)
  | done (head : f j.pair = j.slot (i + items.length))
      (tail : f (j.pair + 8) = j.slot (i + items.length)) (words : ∀ a, W a → ¬V a → f a = new a)

section Atomic

variable {cfg : Config} {j : Journal} {W V : ℕ → Prop} {old new : ℕ → ℕ} {items : List Item}
  {updates : Code Unit} {i : ℕ}

/-- Recovery ends with a quiet journal and the old words. -/
theorem quiet_recoverJournal {s f : ℕ → ℕ} (hfits : Fits cfg j items) (hW : ∀ a, W a → ¬j.Own a)
    (head : f j.pair = j.slot i) (tail : f (j.pair + 8) = j.slot (i + items.length))
    (entries : Recorded cfg j s f i items) (backed : ∀ it ∈ items, it.Backed s f)
    (words : ∀ a, W a → a ∉ covered items → f a = s a) :
    (recoverJournal cfg j.pair).val (restart f) =
        (if items = [] then Recovered.clean else Recovered.rolledBack) ∧
      Quiet j W s i ((recoverJournal cfg j.pair).after (restart f)) ∧
      ∀ a, ∃ v, ((recoverJournal cfg j.pair).after (restart f) a).Sure v := by
  obtain ⟨hval, hsure⟩ := recoverJournal_spec s hfits head tail entries backed
  have hpair : j.pair ∉ covered items := hfits.own_uncovered (Or.inr (Or.inl rfl))
  refine ⟨hval, ⟨?_, ?_, fun a ha => ?_⟩, fun a => ⟨_, hsure a⟩⟩
  · have hs := hsure j.pair
    rwa [rollBack, if_neg (by omega), if_neg hpair, head] at hs
  · have hs := hsure (j.pair + 8)
    rwa [rollBack, if_pos rfl, head] at hs
  · have hs := hsure a
    have htail : a ≠ j.pair + 8 := fun h => hW a ha (Or.inr (Or.inr h))
    rw [rollBack, if_neg htail] at hs
    split_ifs at hs with hc
    · exact hs
    · rwa [words a ha hc] at hs

theorem Quiet.mono {U : ℕ → Prop} {s : ℕ → ℕ} {m : Memory} (h : Quiet j W s i m)
    (hU : ∀ a, U a → W a) : Quiet j U s i m :=
  ⟨h.head, h.tail, fun a ha => h.words a (hU a ha)⟩

theorem Quiet.congr {s s' : ℕ → ℕ} {m : Memory} (h : Quiet j W s i m)
    (hs : ∀ a, W a → s' a = s a) : Quiet j W s' i m :=
  ⟨h.head, h.tail, fun a ha => by rw [hs a ha]; exact h.words a ha⟩

/-- All or nothing, whatever the failure left. -/
theorem Stage.recovers (hfits : Fits cfg j items) (hW : ∀ a, W a → ¬j.Own a) {f : ℕ → ℕ}
    (hf : Stage cfg j W V old new items i f) :
    ((recoverJournal cfg j.pair).val (restart f) = .clean ∨
        (recoverJournal cfg j.pair).val (restart f) = .rolledBack) ∧
      (Quiet j (fun a => W a ∧ ¬V a) old i ((recoverJournal cfg j.pair).after (restart f)) ∨
        Quiet j (fun a => W a ∧ ¬V a) new (i + items.length)
          ((recoverJournal cfg j.pair).after (restart f))) ∧
      ∀ a, ∃ v, ((recoverJournal cfg j.pair).after (restart f) a).Sure v := by
  have hnil : Fits cfg j [] := ⟨by decide, by simp, by simp, by simp, by simp⟩
  have houtside : ∀ a, W a ∧ ¬V a → ¬j.Own a := fun a ha => hW a ha.1
  cases hf with
  | before head tail words =>
    obtain ⟨hv, hq, hs⟩ := quiet_recoverJournal hnil houtside head tail (fun k hk => by simp at hk)
      (by simp) fun a ha _ => words a ha.1 ha.2
    exact ⟨Or.inl hv, Or.inl hq, hs⟩
  | during head tail entries backed words =>
    obtain ⟨hv, hq, hs⟩ := quiet_recoverJournal hfits hW head tail entries backed words
    refine ⟨?_, Or.inl (hq.mono fun a ha => ha.1), hs⟩
    rw [hv]
    split_ifs <;> simp
  | done head tail words =>
    obtain ⟨hv, hq, hs⟩ := quiet_recoverJournal hnil houtside head tail (fun k hk => by simp at hk)
      (by simp) fun a ha _ => words a ha.1 ha.2
    exact ⟨Or.inl hv, Or.inr hq, hs⟩

theorem Stage.untouched {f : ℕ → ℕ} (hf : Stage cfg j W V old new items i f) {a : ℕ} (ha : W a)
    (hv : ¬V a) (hc : a ∉ covered items) (hn : new a = old a) : f a = old a := by
  cases hf with
  | before head tail words => exact words a ha hv
  | during head tail entries backed words => exact words a ha hc
  | done head tail words => exact (words a ha hv).trans hn

/-- Whatever a failure leaves here, it is a stage of the transaction. -/
def Staged (cfg : Config) (j : Journal) (W V : ℕ → Prop) (old new : ℕ → ℕ) (items : List Item)
    (i : ℕ) (m : Memory) : Prop :=
  ∀ f, Leaves m f → Stage cfg j W V old new items i f

theorem Idle.staged {m : Memory} (h : Idle j W V old i m) : Staged cfg j W V old new items i m :=
  fun _ hf => .before (h.head _ (hf _)) (h.tail _ (hf _)) fun a ha hv => h.words a ha hv _ (hf a)

theorem Quiet.idle {s : ℕ → ℕ} {m : Memory} (h : Quiet j W s i m) : Idle j W V s i m :=
  ⟨h.head, h.tail, fun a ha _ => h.words a ha, fun a ha => (h.words a ha).due⟩

theorem Idle.quiet {s : ℕ → ℕ} {m : Memory} (h : Idle j W V s i m) :
    Quiet j (fun a => W a ∧ ¬V a) s i m :=
  ⟨h.head, h.tail, fun a ha => h.words a ha.1 ha.2⟩

theorem Idle.staged_done {m : Memory} (h : Idle j W V new (i + items.length) m) :
    Staged cfg j W V old new items i m :=
  fun _ hf => .done (h.head _ (hf _)) (h.tail _ (hf _)) fun a ha hv => h.words a ha hv _ (hf a)

theorem Idle.after_exec {s : ℕ → ℕ} {m : Memory} {xs : List Op} (h : Idle j W V s i m)
    (hpair : Unstored j.pair xs) (htail : Unstored (j.pair + 8) xs)
    (hw : ∀ a, W a → Unstored a xs) : Idle j W V s i (exec lineOf m xs) :=
  ⟨sure_exec h.head hpair, sure_exec h.tail htail,
    fun a ha hv => sure_exec (h.words a ha hv) (hw a ha),
    fun a ha => due_exec (h.due a ha) (hw a ha)⟩

/-- The words of the entries hold them, also after a failure. -/
def EntriesSure (cfg : Config) (j : Journal) (old : ℕ → ℕ) (items : List Item) (i : ℕ)
    (m : Memory) :
    Prop :=
  Recorded cfg j old (nowOf m) i items ∧
    ∀ a, j.InSlots i items.length a → (m a).Sure (nowOf m a)

theorem EntriesSure.after_exec {m : Memory} {xs : List Op} (h : EntriesSure cfg j old items i m)
    (hx : ∀ a, j.InSlots i items.length a → Unstored a xs) :
    EntriesSure cfg j old items i (exec lineOf m xs) := by
  have hsame : ∀ a, j.InSlots i items.length a → nowOf (exec lineOf m xs) a = nowOf m a :=
    fun a ha => now_exec (hx a ha)
  constructor
  · intro k hk
    exact (h.1 k hk).congr fun b hb =>
      hsame _ ⟨k, hk, Nat.le_add_right _ b, Nat.add_lt_add_left hb _⟩
  · intro a ha
    rw [hsame a ha]
    exact sure_exec (h.2 a ha) (hx a ha)

theorem EntriesSure.recorded {m : Memory} {f : ℕ → ℕ} (h : EntriesSure cfg j old items i m)
    (hf : Leaves m f) : Recorded cfg j old f i items := by
  intro k hk
  exact (h.1 k hk).congr fun b hb =>
    h.2 _ ⟨k, hk, Nat.le_add_right _ b, Nat.add_lt_add_left hb _⟩ _ (hf _)

theorem pair_not_inSlots {n b : ℕ} (hb : b < cachelineSize) : ¬j.InSlots i n (j.pair + b) := by
  rintro ⟨k, -, h₁, h₂⟩
  exact j.pair_not_in_page (i := i + k) (c := j.pair + b - j.slot (i + k)) hb (by omega) (by omega)

/-- The entries are written while the journal is idle. -/
theorem appendItems_spec (h : Respects cfg j W old new items updates) :
    Prog.Spec (Idle j W V old i) (appendItems cfg (j.slot i) items)
      (fun t m => t = j.slot (i + items.length) ∧ Idle j W V old i m ∧
        Recorded cfg j old (nowOf m) i items)
      (Staged cfg j W V old new items i) := by
  have hkeep : ∀ (m : Memory) xs, Idle j W V old i m →
      (∀ a, ¬j.InSlots i items.length a → Unstored a xs) → Idle j W V old i (exec lineOf m xs) :=
    fun m xs hm hx => hm.after_exec (hx _ (pair_not_inSlots (b := 0) (by decide)))
      (hx _ (pair_not_inSlots (by decide))) fun a ha => hx a fun hin => h.outside a ha hin.own
  refine Prog.Spec.of_within (within_appendItems items i) (fun m hm => hm) hkeep
    (fun m hm => hm.staged) fun m hm => ⟨val_appendItems items i m, ?_, ?_⟩
  · exact hkeep m _ hm fun a ha => (within_appendItems items i).unstored ha
  · exact recorded_appendItems items i m h.fits.short h.fits.own fun it hit a ha =>
      (hm.due a (h.covers a (mem_covered.mpr ⟨it, hit, ha⟩))).now_eq

theorem sfence_mem_novaFlushJournalInBatch (cfg : Config) (head tail : ℕ) (m : Memory) :
    MemOp.sfence ∈ (novaFlushJournalInBatch cfg head tail).ops m := by
  unfold novaFlushJournalInBatch persistentBarrier
  split_ifs <;> simp

/-- The batch ends with a fence, which is also the one that the words of `V` wait for. -/
theorem novaFlushJournalInBatch_spec (h : Respects cfg j W old new items updates) :
    Prog.Spec (fun m => Idle j W V old i m ∧ Recorded cfg j old (nowOf m) i items)
      (novaFlushJournalInBatch cfg (j.slot i) (j.slot (i + items.length)))
      (fun _ m => Quiet j W old i m ∧ EntriesSure cfg j old items i m)
      (Staged cfg j W V old new items i) := by
  have hnone := within_novaFlushJournalInBatch (fun _ => False) cfg (j.slot i)
    (j.slot (i + items.length))
  have hkeep : ∀ (m : Memory) xs, Idle j W V old i m → (∀ a, ¬False → Unstored a xs) →
      Idle j W V old i (exec lineOf m xs) :=
    fun m xs hm hx => hm.after_exec (hx _ not_false) (hx _ not_false) fun a _ => hx a not_false
  refine Prog.Spec.of_within hnone (fun m hm => hm.1) hkeep (fun m hm => hm.staged)
    fun m hm => ⟨⟨?_, ?_, fun a ha => ?_⟩, ?_, fun a ha => ?_⟩
  · exact hnone.sure_after not_false hm.1.head
  · exact hnone.sure_after not_false hm.1.tail
  · exact sure_of_fence (hm.1.due a ha) (hnone.unstored not_false)
      (sfence_mem_novaFlushJournalInBatch cfg _ _ m)
  · intro k hk
    exact (hm.2 k hk).congr fun b _ => hnone.now_after not_false
  · rw [show nowOf _ a = (m a).now from hnone.now_after not_false]
    exact sure_novaFlushJournalInBatch h.fits.short ha

structure Published (cfg : Config) (j : Journal) (W : ℕ → Prop) (old : ℕ → ℕ) (items : List Item)
    (i : ℕ) (m : Memory) : Prop where
  head : (m j.pair).Sure (j.slot i)
  tail : (m (j.pair + 8)).Sure (j.slot (i + items.length))
  entries : EntriesSure cfg j old items i m
  words : ∀ a, W a → a ∉ covered items → (m a).Sure (old a)

theorem backed_of_words (h : Respects cfg j W old new items updates) {f : ℕ → ℕ}
    (hf : ∀ a, W a → a ∉ covered items → f a = old a) : ∀ it ∈ items, it.Backed old f :=
  fun it hit => (h.backed it hit).congr fun a ha =>
    hf a (h.replicas it hit a ha) (h.fits.replica_uncovered hit ha)

theorem Published.staged (h : Respects cfg j W old new items updates) {m : Memory}
    (hm : Published cfg j W old items i m) : Staged cfg j W V old new items i m := by
  intro f hf
  have hwords : ∀ a, W a → a ∉ covered items → f a = old a :=
    fun a ha hc => hm.words a ha hc _ (hf a)
  exact .during (hm.head _ (hf _)) (hm.tail _ (hf _)) (hm.entries.recorded hf)
    (backed_of_words h hwords) hwords

/-- How both pointers are set: one word of the pair, then the line that both are in. -/
def storePointer (cfg : Config) (pair b v : ℕ) : Code Unit := do
  store (pair + b) v
  novaFlushBuffer cfg pair cachelineSize true

theorem within_storePointer (cfg : Config) (pair b v : ℕ) :
    Prog.Within (· = pair + b) (storePointer cfg pair b v) :=
  .bind (.store rfl) fun _ => within_novaFlushBuffer _ cfg _ _ _

/-- On the way the pointer has its old value or the new one; at the end the new one. -/
theorem storePointer_spec (cfg : Config) {pair b : ℕ} (v : ℕ) (hb : b < cachelineSize) {m : Memory}
    {u : ℕ} (hu : (m (pair + b)).Sure u) :
    (∀ xs, xs <+: (storePointer cfg pair b v).ops m →
      ∀ w, (exec lineOf m xs (pair + b)).MayHold w → w = u ∨ w = v) ∧
    ((storePointer cfg pair b v).after m (pair + b)).Sure v := by
  constructor
  · intro xs hx w hw
    obtain hw | ⟨o, ho, hw⟩ := mayHold_of_exec hw
    · exact Or.inl (hu w hw)
    · right
      have ho := hx.subset ho
      rw [storePointer, Prog.ops_bind, Prog.ops_store] at ho
      obtain ho | ho := List.mem_append.mp ho
      · obtain rfl := List.mem_singleton.mp ho
        simpa [MemOp.storedTo, eq_comm] using hw
      · rw [(within_novaFlushBuffer (fun _ => False) cfg _ _ _).unstored not_false o ho] at hw
        cases hw
  · have hs : ((novaFlushBuffer cfg pair cachelineSize true).after
        ((store (pair + b) v : Code Unit).after m) (pair + b)).Sure _ :=
      sure_novaFlushBuffer (by decide) (by omega) (by omega)
    have hv : ((store (pair + b) v : Code Unit).after m (pair + b)).now = v := by
      simp [Prog.after, exec_singleton, MemOp.onCell]
    rwa [hv] at hs

theorem publish_spec (h : Respects cfg j W old new items updates) :
    Prog.Spec (fun m => Quiet j W old i m ∧ EntriesSure cfg j old items i m)
      (storePointer cfg j.pair 8 (j.slot (i + items.length)))
      (fun _ m => Published cfg j W old items i m ∧ ∀ a, W a → (m a).Sure (old a))
      (Staged cfg j W V old new items i) := by
  intro m hm
  have hwithin := within_storePointer cfg j.pair 8 (j.slot (i + items.length))
  obtain ⟨hway, hend⟩ := storePointer_spec cfg (j.slot (i + items.length))
    (show 8 < cachelineSize by decide) hm.1.tail
  -- what is not the pointer stays
  have hout : ∀ xs : List Op, (∀ a, ¬a = j.pair + 8 → Unstored a xs) →
      (exec lineOf m xs j.pair).Sure (j.slot i) ∧ EntriesSure cfg j old items i (exec lineOf m xs) ∧
        ∀ a, W a → (exec lineOf m xs a).Sure (old a) := by
    intro xs hx
    refine ⟨sure_exec hm.1.head (hx _ (by omega)), hm.2.after_exec fun a ha => hx a ?_,
      fun a ha => sure_exec (hm.1.words a ha) (hx a ?_)⟩
    · rintro rfl
      exact pair_not_inSlots (by decide) ha
    · rintro rfl
      exact h.outside _ ha (Or.inr (Or.inr rfl))
  constructor
  · intro xs hx f hf
    obtain ⟨hhead, hent, hwords⟩ := hout xs fun a ha => hwithin.unstored_of_prefix ha hx
    have hw : ∀ a, W a → f a = old a := fun a ha => hwords a ha _ (hf a)
    obtain ht | ht := hway xs hx _ (hf _)
    · exact .before (hhead _ (hf _)) ht fun a ha _ => hw a ha
    · exact .during (hhead _ (hf _)) ht (hent.recorded hf)
        (backed_of_words h fun a ha _ => hw a ha) fun a ha _ => hw a ha
  · obtain ⟨hhead, hent, hwords⟩ := hout _ fun a ha => hwithin.unstored ha
    exact ⟨⟨hhead, hend, hent, fun a ha _ => hwords a ha⟩, hwords⟩

theorem Published.after_exec {m : Memory} {xs : List Op}
    (h : Respects cfg j W old new items updates)
    (hm : Published cfg j W old items i m)
    (hx : ∀ a, ¬(a ∈ covered items ∨ ¬(W a ∨ j.Own a)) → Unstored a xs) :
    Published cfg j W old items i (exec lineOf m xs) := by
  have hown : ∀ a, j.Own a → Unstored a xs := by
    intro a ha
    refine hx a fun hin => ?_
    obtain hc | hn := hin
    · exact h.outside a (h.covers a hc) ha
    · exact hn (Or.inr ha)
  have hword : ∀ a, W a → a ∉ covered items → Unstored a xs := fun a ha hc =>
    hx a fun hin => hin.elim hc fun hn => hn (Or.inl ha)
  exact ⟨sure_exec hm.head (hown _ (Or.inr (Or.inl rfl))),
    sure_exec hm.tail (hown _ (Or.inr (Or.inr rfl))),
    hm.entries.after_exec fun a ha => hown a ha.own,
    fun a ha hc => sure_exec (hm.words a ha hc) (hword a ha hc)⟩

theorem updates_spec (h : Respects cfg j W old new items updates) :
    Prog.Spec (fun m => Published cfg j W old items i m ∧ ∀ a, W a → (m a).Sure (old a)) updates
      (fun _ m => Published cfg j W old items i m ∧
        ∀ a ∈ covered items, (m a).Due (new a))
      (Staged cfg j W V old new items i) :=
  Prog.Spec.of_within h.within (fun _ hm => hm.1) (fun _ _ hm hx => hm.after_exec h hx)
    (fun _ hm => hm.staged h) fun m hm =>
      ⟨hm.1.after_exec h fun _ ha => h.within.unstored ha, h.effect m hm.2⟩

theorem barrier_spec (h : Respects cfg j W old new items updates) :
    Prog.Spec (fun m => Published cfg j W old items i m ∧
        ∀ a ∈ covered items, (m a).Due (new a))
      persistentBarrier
      (fun _ m => Published cfg j W old items i m ∧ ∀ a, W a → (m a).Sure (new a))
      (Staged cfg j W V old new items i) := by
  have hnone := within_persistentBarrier fun a => a ∈ covered items ∨ ¬(W a ∨ j.Own a)
  refine Prog.Spec.of_within hnone (fun m hm => hm.1) (fun m xs hm hx => hm.after_exec h hx)
    (fun m hm => hm.staged h) fun m hm => ?_
  have hp : Published cfg j W old items i (persistentBarrier.after m) :=
    hm.1.after_exec h fun a ha => hnone.unstored ha
  refine ⟨hp, fun a ha => ?_⟩
  by_cases hc : a ∈ covered items
  · exact sure_persistentBarrier (hm.2 a hc)
  · rw [h.unchanged a ha hc]
    exact hp.words a ha hc

theorem commit_spec (h : Respects cfg j W old new items updates) :
    Prog.Spec (fun m => Published cfg j W old items i m ∧ ∀ a, W a → (m a).Sure (new a))
      (storePointer cfg j.pair 0 (j.slot (i + items.length)))
      (fun _ m => Quiet j W new (i + items.length) m)
      (Staged cfg j W V old new items i) := by
  intro m hm
  have hwithin := within_storePointer cfg j.pair 0 (j.slot (i + items.length))
  obtain ⟨hway, hend⟩ := storePointer_spec cfg (j.slot (i + items.length))
    (show 0 < cachelineSize by decide) hm.1.head
  have hout : ∀ xs : List Op, (∀ a, ¬a = j.pair + 0 → Unstored a xs) →
      (exec lineOf m xs (j.pair + 8)).Sure (j.slot (i + items.length)) ∧
        EntriesSure cfg j old items i (exec lineOf m xs) ∧
        ∀ a, W a → ∀ v, (m a).Sure v → (exec lineOf m xs a).Sure v := by
    intro xs hx
    refine ⟨sure_exec hm.1.tail (hx _ (by omega)), hm.1.entries.after_exec fun a ha => hx a ?_,
      fun a ha v hv => sure_exec hv (hx a ?_)⟩
    · rintro rfl
      exact pair_not_inSlots (by decide) ha
    · rintro rfl
      exact h.outside _ ha (Or.inr (Or.inl rfl))
  constructor
  · intro xs hx f hf
    obtain ⟨htail, hent, hwords⟩ := hout xs fun a ha => hwithin.unstored_of_prefix ha hx
    obtain hh | hh := hway xs hx _ (hf _)
    · have hw : ∀ a, W a → a ∉ covered items → f a = old a :=
        fun a ha hc => hwords a ha _ (hm.1.words a ha hc) _ (hf a)
      exact .during hh (htail _ (hf _)) (hent.recorded hf) (backed_of_words h hw) hw
    · exact .done hh (htail _ (hf _)) fun a ha _ => hwords a ha _ (hm.2 a ha) _ (hf a)
  · obtain ⟨htail, -, hwords⟩ := hout _ fun a ha => hwithin.unstored ha
    exact ⟨hend, htail, fun a ha => hwords a ha _ (hm.2 a ha)⟩

theorem journalStart_spec :
    Prog.Spec (Idle j W V old i) (journalStart j.pair)
      (fun r m => r = some (j.slot i) ∧ Idle j W V old i m) (Staged cfg j W V old new items i) := by
  refine Prog.Spec.read fun m hm => ⟨by simp [journalStart], hm.staged, ?_, hm⟩
  have hpos : j.slot i ≠ 0 := by
    have := j.page_pos
    unfold Journal.slot
    omega
  simp [journalStart, hm.head.now_eq, hm.tail.now_eq, hpos]

theorem journalPublish_spec (h : Respects cfg j W old new items updates) :
    Prog.Spec (fun m => Idle j W V old i m ∧ Recorded cfg j old (nowOf m) i items)
      (journalPublish cfg j.pair (j.slot (i + items.length)))
      (fun r m => r = j.slot (i + items.length) ∧ Published cfg j W old items i m ∧
        ∀ a, W a → (m a).Sure (old a))
      (Staged cfg j W V old new items i) := by
  have heq : journalPublish cfg j.pair (j.slot (i + items.length)) = (do
      let head ← load j.pair
      novaFlushJournalInBatch cfg head (j.slot (i + items.length))
      storePointer cfg j.pair 8 (j.slot (i + items.length))
      return j.slot (i + items.length)) := by
    simp only [journalPublish, storePointer, bind_assoc]
  rw [heq]
  refine Prog.Spec.bind_load (fun m hm => hm.1.head.now_eq) (fun m hm => hm.1.staged) ?_
  exact (novaFlushJournalInBatch_spec h).bind fun _ => (publish_spec h).bind fun _ =>
    Prog.Spec.pure fun m hm => ⟨hm.1.staged h, rfl, hm⟩

theorem createTransaction_spec (h : Respects cfg j W old new items updates) :
    Prog.Spec (Idle j W V old i) (createTransaction cfg j.pair items)
      (fun r m => r = some (j.slot (i + items.length)) ∧ Published cfg j W old items i m ∧
        ∀ a, W a → (m a).Sure (old a))
      (Staged cfg j W V old new items i) := by
  refine Prog.Spec.bind_val journalStart_spec (Prog.Spec.bind_val (appendItems_spec h) ?_)
  refine Prog.Spec.map ((journalPublish_spec h).conseq (fun _ hm => hm) ?_ fun _ hm => hm)
  rintro r m ⟨rfl, hm⟩
  exact ⟨rfl, hm⟩

theorem novaCommitLiteTransaction_spec (h : Respects cfg j W old new items updates) :
    Prog.Spec (fun m => Published cfg j W old items i m ∧ ∀ a, W a → (m a).Sure (new a))
      (novaCommitLiteTransaction cfg j.pair (j.slot (i + items.length)))
      (fun r m => r = true ∧ Quiet j W new (i + items.length) m)
      (Staged cfg j W V old new items i) := by
  have heq : novaCommitLiteTransaction cfg j.pair (j.slot (i + items.length)) = (do
      let journalTail ← load (j.pair + 8)
      if journalTail ≠ j.slot (i + items.length) then return false
      storePointer cfg j.pair 0 (j.slot (i + items.length))
      return true) := by
    simp only [novaCommitLiteTransaction, storePointer, bind_assoc, Nat.add_zero]
  rw [heq]
  refine Prog.Spec.bind_load (fun m hm => hm.1.tail.now_eq) (fun m hm => hm.1.staged h) ?_
  rw [if_neg (not_not.mpr rfl)]
  exact (commit_spec h).bind fun _ => Prog.Spec.pure fun m hm =>
    ⟨hm.idle.staged_done, rfl, hm⟩

/-- A journalled transaction ends with the new words, and wherever it fails it is at one of its
stages. -/
theorem journalled_spec (h : Respects cfg j W old new items updates) :
    Prog.Spec (Idle j W V old i)
      (journalled cfg j.pair (createTransaction cfg j.pair items) updates)
      (fun r m => r = true ∧ Quiet j W new (i + items.length) m)
      (Staged cfg j W V old new items i) :=
  Prog.Spec.bind_val (createTransaction_spec h) ((updates_spec h).bind fun _ =>
    (barrier_spec h).bind fun _ => novaCommitLiteTransaction_spec h)

/-- A transaction leads to what its updates make of the old words. -/
theorem Respects.of_dependsOn (fits : Fits cfg j items) (outside : ∀ a, W a → ¬j.Own a)
    (covers : ∀ a ∈ covered items, W a) (replicas : ∀ it ∈ items, ∀ a ∈ it.replica, W a)
    (backed : ∀ it ∈ items, it.Backed old old)
    (within : updates.Within fun a => a ∈ covered items ∨ ¬(W a ∨ j.Own a))
    (dep : updates.DependsOn W) (back : updates.WritesBack (· ∈ covered items)) :
    Respects cfg j W old (nowOf (updates.after (restart old))) items updates where
  fits := fits
  outside := outside
  covers := covers
  replicas := replicas
  backed := backed
  within := within
  unchanged a ha hc := within.now_after fun hin => hin.elim hc fun hn => hn (Or.inl ha)
  effect m hm a ha := by
    have hnow : (updates.after m a).now = nowOf (updates.after (restart old)) a :=
      (dep m (restart old) fun a ha => (hm a ha).now_eq).2 a (covers a ha)
    rw [← hnow]
    exact (back m a ha).due

/-- What is done after the commit: it stores to words of `V` and asks for them to be written back.
-/
structure Finishes (j : Journal) (W V : ℕ → Prop) (mid new : ℕ → ℕ) (finish : Code Unit) :
    Prop where
  within : finish.Within fun a => V a ∨ ¬(W a ∨ j.Own a)
  outside : ∀ a, V a → ¬j.Own a
  unchanged : ∀ a, W a → ¬V a → new a = mid a
  effect : ∀ m : Memory, (∀ a, W a → (m a).Sure (mid a)) → ∀ a, W a → (finish.after m a).Due (new a)

theorem Staged.congr {mid : ℕ → ℕ} {m : Memory} (h : Staged cfg j W V old mid items i m)
    (hnew : ∀ a, W a → ¬V a → new a = mid a) : Staged cfg j W V old new items i m := by
  intro f hf
  cases h f hf with
  | before head tail words => exact .before head tail words
  | during head tail entries backed words => exact .during head tail entries backed words
  | done head tail words =>
    exact .done head tail fun a ha hv => (words a ha hv).trans (hnew a ha hv).symm

theorem finish_spec {mid : ℕ → ℕ} {finish : Code Unit} (hf : Finishes j W V mid new finish) :
    Prog.Spec (Quiet j W mid (i + items.length)) finish
      (fun _ m => Idle j W V new (i + items.length) m) (Staged cfg j W V old new items i) := by
  have hown : ∀ a, j.Own a → ¬(V a ∨ ¬(W a ∨ j.Own a)) := fun a ha hin =>
    hin.elim (fun hv => hf.outside a hv ha) fun hn => hn (Or.inr ha)
  have hword : ∀ a, W a → ¬V a → ¬(V a ∨ ¬(W a ∨ j.Own a)) := fun a ha hv hin =>
    hin.elim hv fun hn => hn (Or.inl ha)
  have hkeep : ∀ (m : Memory) xs, Quiet j (fun a => W a ∧ ¬V a) new (i + items.length) m →
      (∀ a, ¬(V a ∨ ¬(W a ∨ j.Own a)) → Unstored a xs) →
      Quiet j (fun a => W a ∧ ¬V a) new (i + items.length) (exec lineOf m xs) := fun m xs hm hx =>
    ⟨sure_exec hm.head (hx _ (hown _ (Or.inr (Or.inl rfl)))),
      sure_exec hm.tail (hx _ (hown _ (Or.inr (Or.inr rfl)))),
      fun a ha => sure_exec (hm.words a ha) (hx a (hword a ha.1 ha.2))⟩
  have hstart : ∀ m, Quiet j W mid (i + items.length) m →
      Quiet j (fun a => W a ∧ ¬V a) new (i + items.length) m := fun m hm =>
    ⟨hm.head, hm.tail, fun a ha => by rw [hf.unchanged a ha.1 ha.2]; exact hm.words a ha.1⟩
  refine Prog.Spec.of_within hf.within hstart hkeep (fun m hm f hfm => ?_) fun m hm => ?_
  · exact .done (hm.head _ (hfm _)) (hm.tail _ (hfm _)) fun a ha hv => hm.words a ⟨ha, hv⟩ _ (hfm a)
  · have hq := hkeep m (finish.ops m) (hstart m hm) fun a ha => hf.within.unstored ha
    exact ⟨hq.head, hq.tail, fun a ha hv => hq.words a ⟨ha, hv⟩, hf.effect m hm.words⟩

/-- The whole of it: all or nothing, and afterwards the next one can begin. -/
theorem transaction_spec {mid : ℕ → ℕ} {finish : Code Unit}
    (h : Respects cfg j W old mid items updates) (hf : Finishes j W V mid new finish) :
    Prog.Spec (Idle j W V old i)
      (transaction cfg j.pair (createTransaction cfg j.pair items) updates finish)
      (fun r m => r = true ∧ Idle j W V new (i + items.length) m)
      (Staged cfg j W V old new items i) := by
  have hj : Prog.Spec (Idle j W V old i) _ _ (Staged cfg j W V old new items i) :=
    (journalled_spec h).conseq (fun _ hm => hm) (fun _ _ hq => hq) fun _ hs => hs.congr hf.unchanged
  refine Prog.Spec.bind_val hj ?_
  refine Prog.Spec.bind (Q := fun _ m => Idle j W V new (i + items.length) m) ?_ fun _ =>
    Prog.Spec.pure fun m hm => ⟨hm.staged_done, rfl, hm⟩
  exact finish_spec hf

/-- All or nothing from `m` on: uninterrupted it leads to `new`, and wherever it fails, recovery
leads to the words of `U` as they were or as they would have become. Both end with an empty journal.
-/
def CrashAtomic (cfg : Config) (j : Journal) (U : ℕ → Prop) (old new : ℕ → ℕ) (p : Code Bool)
    (m : Memory) : Prop :=
  (p.val m = true ∧ ∃ i, Quiet j U new i (p.after m)) ∧
    ∀ xs, xs <+: p.ops m → ∀ f, Leaves (exec lineOf m xs) f →
      ((recoverJournal cfg j.pair).val (restart f) = .clean ∨
        (recoverJournal cfg j.pair).val (restart f) = .rolledBack) ∧
      ∃ i, Quiet j U old i ((recoverJournal cfg j.pair).after (restart f)) ∨
        Quiet j U new i ((recoverJournal cfg j.pair).after (restart f))

theorem transaction_crashAtomic {mid : ℕ → ℕ} {finish : Code Unit} {m : Memory}
    (h : Respects cfg j W old mid items updates) (hf : Finishes j W V mid new finish)
    (hm : Idle j W V old i m) :
    CrashAtomic cfg j (fun a => W a ∧ ¬V a) old new
      (transaction cfg j.pair (createTransaction cfg j.pair items) updates finish) m := by
  obtain ⟨hc, hr, hidle⟩ := transaction_spec h hf m hm
  refine ⟨⟨hr, _, hidle.quiet⟩, fun xs hx f hfm => ?_⟩
  obtain ⟨hv, hq | hq, -⟩ := (hc xs hx f hfm).recovers h.fits h.outside
  · exact ⟨hv, _, Or.inl hq⟩
  · exact ⟨hv, _, Or.inr hq⟩

theorem CrashAtomic.congr {U : ℕ → Prop} {new' : ℕ → ℕ} {p : Code Bool} {m : Memory}
    (h : CrashAtomic cfg j U old new p m) (hn : ∀ a, U a → new' a = new a) :
    CrashAtomic cfg j U old new' p m := by
  obtain ⟨⟨hval, k, hquiet⟩, hfail⟩ := h
  refine ⟨⟨hval, k, hquiet.congr hn⟩, fun xs hx f hf => ?_⟩
  obtain ⟨hv, k', hq⟩ := hfail xs hx f hf
  exact ⟨hv, k', hq.imp id fun hq => hq.congr hn⟩

theorem transaction_pure (cfg : Config) (pair : ℕ) (create : Code (Option ℕ))
    (updates : Code Unit) :
    transaction cfg pair create updates (pure ()) = journalled cfg pair create updates := by
  simp [transaction]

theorem finishes_pure (j : Journal) (W : ℕ → Prop) (s : ℕ → ℕ) :
    Finishes j W (fun _ => False) s s (pure ()) :=
  ⟨.pure _ _, fun _ h => h.elim, fun _ _ _ => rfl, fun _ hm a ha => (hm a ha).due⟩

end Atomic

def Journal.fresh (j : Journal) (s : ℕ → ℕ) : Memory :=
  restart fun a => if a = j.pair ∨ a = j.pair + 8 then j.slot 0 else s a

theorem Journal.quiet_fresh (j : Journal) (W : ℕ → Prop) (s : ℕ → ℕ) :
    Quiet j W (nowOf (j.fresh s)) 0 (j.fresh s) := by
  have hsure : ∀ a, (j.fresh s a).Sure (nowOf (j.fresh s) a) := fun a => Cell.sure_rest _
  refine ⟨?_, ?_, fun a _ => hsure a⟩
  · have := hsure j.pair
    rwa [show nowOf (j.fresh s) j.pair = j.slot 0 from if_pos (Or.inl rfl)] at this
  · have := hsure (j.pair + 8)
    rwa [show nowOf (j.fresh s) (j.pair + 8) = j.slot 0 from if_pos (Or.inr rfl)] at this

def sampleJournal : Journal where
  page := pageSize * 100
  pair := novaGetJournalPointers 0
  page_aligned := by decide
  page_pos := by decide
  pair_aligned := by decide
  apart := by decide

end Squint.Nova
