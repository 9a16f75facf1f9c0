import Squint.Nova.Journal

/-! What recovery makes of a journal: if the pairs and the entries are there, every word that an
entry covers gets its old value back, and nothing else changes. -/
namespace Squint.Nova
open Squint.Lib

/-- The page and the pair of pointers of one processor. -/
structure Journal where
  page : ℕ
  pair : ℕ
  page_aligned : page % pageSize = 0
  page_pos : 0 < page
  pair_aligned : pair % cachelineSize = 0
  apart : pair + cachelineSize ≤ page ∨ page + pageSize ≤ pair

namespace Journal

/-- The place of the `i`-th entry since the journal was made. -/
def slot (j : Journal) (i : ℕ) : ℕ := j.page + entrySize * (i % novaMaxJournalLength)

/-- The words of the journal itself. -/
def Own (j : Journal) (a : ℕ) : Prop :=
  (j.page ≤ a ∧ a < j.page + pageSize) ∨ a = j.pair ∨ a = j.pair + 8

/-- The `n` bytes from `x` on are not the journal's. -/
def Clear (j : Journal) (x n : ℕ) : Prop :=
  (x + n ≤ j.page ∨ j.page + pageSize ≤ x) ∧ (x + n ≤ j.pair ∨ j.pair + cachelineSize ≤ x)

instance (j : Journal) (x n : ℕ) : Decidable (j.Clear x n) := inferInstanceAs (Decidable (_ ∧ _))

theorem Clear.not_own {j : Journal} {x n a : ℕ} (h : j.Clear x n) (h₁ : x ≤ a) (h₂ : a < x + n) :
    ¬j.Own a := by
  unfold Clear cachelineSize at h
  rintro (ha | ha | ha) <;> omega

theorem nextLiteJournal_slot (j : Journal) (i : ℕ) :
    nextLiteJournal (j.slot i) = j.slot (i + 1) := by
  have h := j.page_aligned
  unfold nextLiteJournal slot
  simp only [pageSize, entrySize, novaMaxJournalLength, ge_iff_le] at *
  split_ifs <;> omega

/-- The ring does not close before all its places are used. -/
theorem slot_ne (j : Journal) {i n : ℕ} (h₀ : 0 < n) (h : n < novaMaxJournalLength) :
    j.slot i ≠ j.slot (i + n) := by
  unfold slot
  simp only [entrySize, novaMaxJournalLength] at *
  omega

theorem slot_own (j : Journal) (i : ℕ) {b : ℕ} (hb : b < entrySize) : j.Own (j.slot i + b) := by
  left
  unfold slot
  simp only [pageSize, entrySize, novaMaxJournalLength] at *
  omega

theorem pair_not_in_page (j : Journal) {b i c : ℕ} (hb : b < cachelineSize) (hc : c < entrySize) :
    j.pair + b ≠ j.slot i + c := by
  have h := j.apart
  unfold slot
  simp only [pageSize, entrySize, novaMaxJournalLength] at *
  omega

end Journal

/-- What an entry is made for: the word of a field, or an inode that has a replica. -/
inductive Item
  | field (a : ℕ)
  | inode (pi alterPi : ℕ)
deriving DecidableEq, Repr

namespace Item

def type : Item → ℕ
  | field _ => journalEntry
  | inode _ _ => journalInode

def data1 : Item → ℕ
  | field a => wordOf a
  | inode pi _ => pi

def data2 (old : ℕ → ℕ) : Item → ℕ
  | field a => old (wordOf a)
  | inode _ alterPi => alterPi

def words : Item → List ℕ
  | field a => [wordOf a]
  | inode pi _ => (List.range inodeWords).map fun k => pi + 8 * k

/-- The words that undoing the entry copies from. -/
def replica : Item → List ℕ
  | field _ => []
  | inode _ alterPi => (List.range inodeWords).map fun k => alterPi + 8 * k

/-- The replica holds what the inode held. -/
def Backed (old f : ℕ → ℕ) : Item → Prop
  | field _ => True
  | inode pi alterPi => ∀ k < inodeWords, f (alterPi + 8 * k) = old (pi + 8 * k)

end Item

/-- An entry with its checksum. -/
structure EntryAt (cfg : Config) (f : ℕ → ℕ) (c ty d₁ d₂ : ℕ) : Prop where
  type : f c = ty
  data1 : f (c + 8) = d₁
  data2 : f (c + 16) = d₂
  csum : getBytes (f (c + 24)) 4 4 = entryCsum cfg ty d₁ d₂ (f (c + 24))

/-- From place `i` on there is an entry for each item, with the old values. -/
def Recorded (cfg : Config) (j : Journal) (old f : ℕ → ℕ) (i : ℕ) (items : List Item) : Prop :=
  ∀ k (h : k < items.length),
    EntryAt cfg f (j.slot (i + k)) items[k].type items[k].data1 (items[k].data2 old)

/-- The items of one transaction do not get into each other's way, and the ring has room for
them. -/
structure Fits (cfg : Config) (j : Journal) (items : List Item) : Prop where
  short : items.length < novaMaxJournalLength
  own : ∀ it ∈ items, ∀ a ∈ it.words, ¬j.Own a
  replica_own : ∀ it ∈ items, ∀ a ∈ it.replica, ¬j.Own a
  replica : ∀ it ∈ items, ∀ it' ∈ items, ∀ a ∈ it.replica, a ∉ it'.words
  mode : ∀ it ∈ items, it.type = journalInode → cfg.metadataCsum = true

theorem Item.Backed.congr {old f g : ℕ → ℕ} {it : Item} (h : it.Backed old f)
    (hg : ∀ a ∈ it.replica, g a = f a) : it.Backed old g := by
  cases it with
  | field a => trivial
  | inode pi alterPi =>
    intro k hk
    rw [← h k hk]
    exact hg _ (List.mem_map.mpr ⟨k, List.mem_range.mpr hk, rfl⟩)

def nowOf (m : Memory) (a : ℕ) : ℕ := (m a).now

/-- The copy of an inode in the state `s`. -/
def wordsAt (s : ℕ → ℕ) (pi : ℕ) : List ℕ := (List.range inodeWords).map fun k => s (pi + 8 * k)

theorem val_loadWords (pi : ℕ) (m : Memory) :
    (loadWords pi inodeWords).val m = wordsAt (nowOf m) pi :=
  (loadWords_eq pi inodeWords m).1

theorem Recorded.tail {cfg : Config} {j : Journal} {old f : ℕ → ℕ} {i : ℕ} {it : Item}
    {items : List Item} (h : Recorded cfg j old f i (it :: items)) :
    Recorded cfg j old f (i + 1) items := by
  intro k hk
  have := h (k + 1) (by simp; omega)
  rw [show i + 1 + k = i + (k + 1) by omega]
  simpa using this

theorem Fits.tail {cfg : Config} {j : Journal} {it : Item} {items : List Item}
    (h : Fits cfg j (it :: items)) : Fits cfg j items where
  short := by
    have := h.short
    simp at this
    omega
  own it' hit := h.own it' (by simp [hit])
  replica_own it' hit := h.replica_own it' (by simp [hit])
  replica it' hit it'' hit' := h.replica it' (by simp [hit]) it'' (by simp [hit'])
  mode it' hit := h.mode it' (by simp [hit])

theorem EntryAt.congr {cfg : Config} {f g : ℕ → ℕ} {c ty d₁ d₂ : ℕ} (h : EntryAt cfg f c ty d₁ d₂)
    (hg : ∀ b < entrySize, g (c + b) = f (c + b)) : EntryAt cfg g c ty d₁ d₂ where
  type := (hg 0 (by decide)).trans h.type
  data1 := (hg 8 (by decide)).trans h.data1
  data2 := (hg 16 (by decide)).trans h.data2
  csum := by
    rw [hg 24 (by decide)]
    exact h.csum

section Undo

variable {cfg : Config} {m : Memory}

/-- What undoing an entry does to a memory with nothing outstanding. -/
structure Undone (old : ℕ → ℕ) (words : List ℕ) (m m' : Memory) : Prop where
  now_of_mem : ∀ a ∈ words, nowOf m' a = old a
  now_of_not_mem : ∀ a ∉ words, nowOf m' a = nowOf m a
  ready : (∀ a, (m a).Ready) → ∀ a, (m' a).Ready

theorem Undone.refl (old : ℕ → ℕ) (m : Memory) : Undone old [] m m :=
  ⟨fun a ha => by simp at ha, fun a _ => rfl, fun h => h⟩

theorem Undone.trans {old : ℕ → ℕ} {ws ws' : List ℕ} {m m' m'' : Memory}
    (h : Undone old ws m m') (h' : Undone old ws' m' m'') : Undone old (ws ++ ws') m m'' := by
  refine ⟨fun a ha => ?_, fun a ha => ?_, fun hr => h'.ready (h.ready hr)⟩
  · by_cases haw : a ∈ ws'
    · exact h'.now_of_mem a haw
    · rw [h'.now_of_not_mem a haw]
      exact h.now_of_mem a ((List.mem_append.mp ha).resolve_right haw)
  · have ha : a ∉ ws ∧ a ∉ ws' := by simpa using ha
    rw [h'.now_of_not_mem a ha.2, h.now_of_not_mem a ha.1]

theorem Undone.of_prog {ρ : Type} {p : Code ρ} {old : ℕ → ℕ} {words : List ℕ}
    (hun : ∀ a ∉ words, Unstored a (p.ops m))
    (hw : ∀ a ∈ words, nowOf (p.after m) a = old a ∧ (p.after m a).Ready) :
    Undone old words m (p.after m) := by
  refine ⟨fun a ha => (hw a ha).1, fun a ha => now_exec (hun a ha), fun hr a => ?_⟩
  by_cases ha : a ∈ words
  · exact (hw a ha).2
  · exact ready_exec (hr a) (hun a ha)

theorem ops_undo_field {c x v : ℕ} (h : EntryAt cfg (nowOf m) c journalEntry x v) :
    (novaUndoLiteJournalEntry cfg c).ops m = MemOp.store x v ::
      (novaFlushBuffer cfg x cachelineSize false).ops ((store x v : Code Unit).after m) := by
  have h₀ : (m c).now = journalEntry := h.type
  have h₁ : (m (c + 8)).now = x := h.data1
  have h₂ : (m (c + 16)).now = v := h.data2
  simp [novaUndoLiteJournalEntry, novaUndoJournalEntry, h₀, h₁, h₂, journalInode, journalEntry]

theorem after_undo_field {c x v : ℕ} (h : EntryAt cfg (nowOf m) c journalEntry x v) :
    (novaUndoLiteJournalEntry cfg c).after m =
      (novaFlushBuffer cfg x cachelineSize false).after ((store x v : Code Unit).after m) := by
  rw [Prog.after, ops_undo_field h, exec_cons]
  rfl

/-- The replica comes back over the inode. -/
theorem ops_undo_inode {c pi alterPi : ℕ} (hcsum : cfg.metadataCsum = true)
    (h : EntryAt cfg (nowOf m) c journalInode pi alterPi) :
    (novaUndoLiteJournalEntry cfg c).ops m =
      (memcpyToPmemNocache cfg pi (wordsAt (nowOf m) alterPi)).ops m := by
  have h₀ : (m c).now = journalInode := h.type
  have h₁ : (m (c + 8)).now = pi := h.data1
  have h₂ : (m (c + 16)).now = alterPi := h.data2
  simp [novaUndoLiteJournalEntry, novaUndoJournalInode, hcsum, h₀, h₁, h₂, (loadWords_eq _ _ m).2,
    val_loadWords, after_loadWords]

theorem novaUndoLiteJournalEntry_undone {old : ℕ → ℕ} {c : ℕ} {it : Item}
    (hcfg : it.type = journalInode → cfg.metadataCsum = true)
    (h : EntryAt cfg (nowOf m) c it.type it.data1 (it.data2 old))
    (hback : it.Backed old (nowOf m)) :
    Undone old it.words m ((novaUndoLiteJournalEntry cfg c).after m) := by
  cases it with
  | field a =>
    have h : EntryAt cfg (nowOf m) c journalEntry (wordOf a) (old (wordOf a)) := h
    have hflush := within_novaFlushBuffer (fun _ => False) cfg (wordOf a) cachelineSize false
    apply Undone.of_prog
    · intro x hx o ho
      have hx : wordOf a ≠ x := fun he => hx (by simp [Item.words, he])
      rw [ops_undo_field h] at ho
      obtain rfl | ho := List.mem_cons.mp ho
      · simp [MemOp.storedTo, hx]
      · exact hflush.unstored not_false o ho
    · intro x hx
      obtain rfl : x = wordOf a := by simpa [Item.words] using hx
      rw [after_undo_field h]
      constructor
      · refine now_novaFlushBuffer.trans ?_
        simp [Prog.after, exec_singleton, MemOp.onCell]
      · exact ready_novaFlushBuffer (by decide) (Nat.le_refl _) (by unfold cachelineSize; omega)
  | inode pi alterPi =>
    have hops := ops_undo_inode (hcfg rfl) h
    have hlen : (wordsAt (nowOf m) alterPi).length = inodeWords := by simp [wordsAt]
    apply Undone.of_prog
    · intro a ha
      rw [hops]
      exact unstored_memcpyToPmemNocache fun k hk he =>
        ha (List.mem_map.mpr ⟨k, List.mem_range.mpr (hlen ▸ hk), he.symm⟩)
    · intro a ha
      obtain ⟨k, hk, rfl⟩ := List.mem_map.mp ha
      have hk : k < inodeWords := List.mem_range.mp hk
      obtain ⟨hnow, hready, -⟩ :=
        memcpyToPmemNocache_spec cfg pi (wordsAt (nowOf m) alterPi) m (k := k) (hlen.symm ▸ hk)
      rw [nowOf, Prog.after, hops]
      exact ⟨hnow.trans (by simpa [wordsAt] using hback k hk), hready⟩

end Undo

section Loops

variable {cfg : Config} {j : Journal} {old : ℕ → ℕ}

/-- The words that all items together cover. -/
def covered (items : List Item) : List ℕ := items.flatMap Item.words

theorem mem_covered {items : List Item} {a : ℕ} : a ∈ covered items ↔ ∃ it ∈ items, a ∈ it.words :=
  List.mem_flatMap

theorem Fits.own_uncovered {items : List Item} (h : Fits cfg j items) {a : ℕ} (ha : j.Own a) :
    a ∉ covered items := fun hc => by
  obtain ⟨it, hit, hw⟩ := mem_covered.mp hc
  exact h.own it hit a hw ha

theorem Fits.replica_uncovered {items : List Item} (h : Fits cfg j items) {it : Item}
    (hit : it ∈ items) {a : ℕ} (ha : a ∈ it.replica) : a ∉ covered items := fun hc => by
  obtain ⟨it', hit', hw⟩ := mem_covered.mp hc
  exact h.replica it hit it' hit' a ha hw

/-- What recovery reads it does not store to. -/
theorem Undone.keeps_recorded {words : List ℕ} {m m' : Memory} (h : Undone old words m m')
    (hown : ∀ a ∈ words, ¬j.Own a) {i : ℕ} {items : List Item}
    (hr : Recorded cfg j old (nowOf m) i items) : Recorded cfg j old (nowOf m') i items := by
  intro k hk
  refine (hr k hk).congr fun b hb => h.now_of_not_mem _ fun hmem => ?_
  exact hown _ hmem (j.slot_own (i + k) hb)

theorem Undone.keeps_backed {words : List ℕ} {m m' : Memory} (h : Undone old words m m') {it : Item}
    (hsep : ∀ a ∈ it.replica, a ∉ words) (hb : it.Backed old (nowOf m)) :
    it.Backed old (nowOf m') :=
  hb.congr fun a ha => h.now_of_not_mem a (hsep a ha)

theorem undoEntries_spec (items : List Item) (fuel i : ℕ) (m : Memory)
    (hfuel : items.length ≤ fuel) (hfits : Fits cfg j items)
    (htail : nowOf m (j.pair + 8) = j.slot (i + items.length))
    (hrec : Recorded cfg j old (nowOf m) i items)
    (hback : ∀ it ∈ items, it.Backed old (nowOf m)) :
    (undoEntries cfg j.pair fuel (j.slot i)).val m = true ∧
      Undone old (covered items) m ((undoEntries cfg j.pair fuel (j.slot i)).after m) := by
  -- one entry after the other, in the order in which they were appended
  induction items generalizing fuel i m with
  | nil =>
    have htail : (m (j.pair + 8)).now = j.slot i := htail
    have hrefl : Undone old (covered []) m m := Undone.refl old m
    cases fuel with
    | zero => simpa [undoEntries, htail] using hrefl
    | succ fuel => simpa [undoEntries, htail] using hrefl
  | cons it items ih =>
    obtain ⟨fuel, rfl⟩ : ∃ n, fuel = n + 1 := ⟨fuel - 1, by simp at hfuel; omega⟩
    have hne : j.slot i ≠ (m (j.pair + 8)).now := by
      rw [show (m (j.pair + 8)).now = _ from htail]
      exact j.slot_ne (by simp) hfits.short
    have hone : Undone old it.words m ((novaUndoLiteJournalEntry cfg (j.slot i)).after m) := by
      apply novaUndoLiteJournalEntry_undone
      · exact hfits.mode it (by simp)
      · exact hrec 0 (by simp)
      · exact hback it (by simp)
    have hown := hfits.own it (by simp)
    obtain ⟨hval, hrest⟩ := ih fuel (i + 1) ((novaUndoLiteJournalEntry cfg (j.slot i)).after m)
      (by simp at hfuel; omega) hfits.tail
      (by
        rw [hone.now_of_not_mem _ fun hmem => hown _ hmem (Or.inr (Or.inr rfl)), htail]
        simp [Nat.add_comm, Nat.add_left_comm])
      (hone.keeps_recorded hown hrec.tail)
      (fun it' hit => hone.keeps_backed (hfits.replica it' (by simp [hit]) it (by simp))
        (hback it' (by simp [hit])))
    simp only [undoEntries, Prog.val_bind, Prog.after_bind, Prog.val_load, Prog.after_load,
      if_neg hne, j.nextLiteJournal_slot]
    exact ⟨hval, hone.trans hrest⟩

theorem novaCheckEntryIntegrity_eq {c ty d₁ d₂ : ℕ} {m : Memory}
    (h : EntryAt cfg (nowOf m) c ty d₁ d₂) :
    (novaCheckEntryIntegrity cfg c).val m = true ∧ (novaCheckEntryIntegrity cfg c).ops m = [] := by
  have h₀ : (m c).now = ty := h.type
  have h₁ : (m (c + 8)).now = d₁ := h.data1
  have h₂ : (m (c + 16)).now = d₂ := h.data2
  have h₃ := h.csum
  constructor
  · simpa [novaCheckEntryIntegrity, h₀, h₁, h₂, nowOf] using h₃
  · simp [novaCheckEntryIntegrity]

/-- The check finds the entries whole; it only reads. -/
theorem novaCheckJournalEntries_spec (items : List Item) (fuel i : ℕ) (m : Memory)
    (hfuel : items.length ≤ fuel) (hshort : items.length < novaMaxJournalLength)
    (htail : nowOf m (j.pair + 8) = j.slot (i + items.length))
    (hrec : Recorded cfg j old (nowOf m) i items) :
    (novaCheckJournalEntries cfg j.pair fuel (j.slot i)).val m = some true ∧
      (novaCheckJournalEntries cfg j.pair fuel (j.slot i)).ops m = [] := by
  induction items generalizing fuel i with
  | nil =>
    have htail : (m (j.pair + 8)).now = j.slot i := htail
    cases fuel with
    | zero => simp [novaCheckJournalEntries, htail]
    | succ fuel => simp [novaCheckJournalEntries, htail]
  | cons it items ih =>
    obtain ⟨fuel, rfl⟩ : ∃ n, fuel = n + 1 := ⟨fuel - 1, by simp at hfuel; omega⟩
    have hne : j.slot i ≠ (m (j.pair + 8)).now := by
      rw [show (m (j.pair + 8)).now = _ from htail]
      exact j.slot_ne (by simp) hshort
    obtain ⟨hok, hnop⟩ := novaCheckEntryIntegrity_eq (c := j.slot i) (hrec 0 (by simp))
    have hsame : (novaCheckEntryIntegrity cfg (j.slot i)).after m = m := by
      rw [Prog.after, hnop, exec_nil]
    obtain ⟨hval, hops⟩ := ih fuel (i + 1) (by simp at hfuel; omega)
      (by simp at hshort; omega)
      (by rw [htail]; simp [Nat.add_comm, Nat.add_left_comm]) hrec.tail
    simp [novaCheckJournalEntries, hne, hok, hnop, hsame, j.nextLiteJournal_slot, hval, hops]

/-- What is in memory after a roll back. -/
def rollBack (j : Journal) (old : ℕ → ℕ) (items : List Item) (f : ℕ → ℕ) (a : ℕ) : ℕ :=
  if a = j.pair + 8 then f j.pair else if a ∈ covered items then old a else f a

theorem novaRecoverLiteJournal_spec {items : List Item} {i : ℕ} {m : Memory}
    (hfits : Fits cfg j items) (hhead : nowOf m j.pair = j.slot i)
    (htail : nowOf m (j.pair + 8) = j.slot (i + items.length))
    (hrec : Recorded cfg j old (nowOf m) i items)
    (hback : ∀ it ∈ items, it.Backed old (nowOf m)) (hready : ∀ a, (m a).Ready) :
    (novaRecoverLiteJournal cfg j.pair).val m = true ∧
      ∀ a, ((novaRecoverLiteJournal cfg j.pair).after m a).Sure
        (rollBack j old items (nowOf m) a) := by
  have hhead' : (m j.pair).now = j.slot i := hhead
  obtain ⟨hended, hun⟩ := undoEntries_spec items novaMaxJournalLength i m
    (Nat.le_of_lt hfits.short) hfits htail hrec hback
  -- the pair is not among the words that are rolled back
  have hpair : j.pair ∉ covered items := hfits.own_uncovered (Or.inr (Or.inl rfl))
  have hpair' : ((undoEntries cfg j.pair novaMaxJournalLength (j.slot i)).after m j.pair).now =
      j.slot i := (hun.now_of_not_mem _ hpair).trans hhead
  constructor
  · simp [novaRecoverLiteJournal, hhead', hended]
  · intro a
    simp only [novaRecoverLiteJournal, Prog.after_bind, Prog.val_load, Prog.after_load, hhead',
      hended, if_true, hpair', Prog.after_pure]
    have hready' := hun.ready hready
    generalize (undoEntries cfg j.pair novaMaxJournalLength (j.slot i)).after m = m' at *
    by_cases ha : a = j.pair + 8
    · subst ha
      rw [rollBack, if_pos rfl, hhead]
      have hstored : ((store (j.pair + 8) (j.slot i) : Code Unit).after m' (j.pair + 8)).now =
          j.slot i := by
        simp [Prog.after, exec_singleton, MemOp.onCell]
      have hs : ((novaFlushBuffer cfg j.pair cachelineSize true).after
          ((store (j.pair + 8) (j.slot i) : Code Unit).after m') (j.pair + 8)).Sure _ :=
        sure_novaFlushBuffer (by decide) (by omega) (by unfold cachelineSize; omega)
      rwa [hstored] at hs
    · have hnow : nowOf m' a = rollBack j old items (nowOf m) a := by
        rw [rollBack, if_neg ha]
        split_ifs with hc
        · exact hun.now_of_mem a hc
        · exact hun.now_of_not_mem a hc
      rw [← hnow]
      have hstore : Unstored a ((store (j.pair + 8) (j.slot i) : Code Unit).ops m') := by
        intro o ho
        obtain rfl : o = MemOp.store (j.pair + 8) (j.slot i) := by simpa using ho
        simp [MemOp.storedTo, Ne.symm ha]
      have hstored : ((store (j.pair + 8) (j.slot i) : Code Unit).after m' a).Ready :=
        ready_exec (hready' a) hstore
      have hsame : ((store (j.pair + 8) (j.slot i) : Code Unit).after m' a).now = (m' a).now :=
        now_exec hstore
      rw [show nowOf m' a = (m' a).now from rfl, ← hsame]
      apply sure_of_fence hstored.due
      · exact (within_novaFlushBuffer (fun _ => False) cfg _ _ _).unstored not_false
      · simp [ops_novaFlushBuffer]

theorem recoverJournal_spec (old : ℕ → ℕ) {items : List Item} {i : ℕ} {f : ℕ → ℕ}
    (hfits : Fits cfg j items)
    (hhead : f j.pair = j.slot i) (htail : f (j.pair + 8) = j.slot (i + items.length))
    (hrec : Recorded cfg j old f i items) (hback : ∀ it ∈ items, it.Backed old f) :
    (recoverJournal cfg j.pair).val (restart f) =
        (if items = [] then Recovered.clean else Recovered.rolledBack) ∧
      ∀ a, ((recoverJournal cfg j.pair).after (restart f) a).Sure (rollBack j old items f a) := by
  have hnow : nowOf (restart f) = f := rfl
  have hhead' : (restart f j.pair).now = j.slot i := hhead
  have htail' : (restart f (j.pair + 8)).now = j.slot (i + items.length) := htail
  cases items with
  | nil =>
    have hsame : (recoverJournal cfg j.pair).after (restart f) = restart f := by
      simp [recoverJournal, hhead', htail']
    refine ⟨by simp [recoverJournal, hhead', htail'], fun a => ?_⟩
    have hroll : rollBack j old [] f a = f a := by
      unfold rollBack
      split_ifs with ha hc
      · rw [ha, hhead, htail]
        rfl
      · simp [covered] at hc
      · rfl
    rw [hsame, hroll]
    exact Cell.sure_rest (f a)
  | cons it items =>
    have hne : ¬j.slot i = j.slot (i + (items.length + 1)) := j.slot_ne (by omega) hfits.short
    obtain ⟨hcheck, hnop⟩ := novaCheckJournalEntries_spec (it :: items) novaMaxJournalLength i
      (restart f) (Nat.le_of_lt hfits.short) hfits.short htail hrec
    have hsame : (novaCheckJournalEntries cfg j.pair novaMaxJournalLength (j.slot i)).after
        (restart f) = restart f := by
      rw [Prog.after, hnop, exec_nil]
    obtain ⟨hval, hsure⟩ :=
      novaRecoverLiteJournal_spec (m := restart f) hfits hhead htail hrec hback
      fun a => Cell.ready_rest (f a)
    rw [hnow] at hsure
    constructor
    · simp [recoverJournal, hhead', htail', hne, hcheck, hsame, hval]
    · simpa [recoverJournal, hhead', htail', hne, hcheck, hsame, hval] using hsure

def Clean (m : Memory) (cpu : ℕ) : Prop :=
  nowOf m (novaGetJournalPointers cpu) = nowOf m (novaGetJournalPointers cpu + 8)

end Loops

end Squint.Nova
