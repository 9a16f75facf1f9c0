import Squint.Nova.ParentEntries
import Mathlib.Data.List.Nodup

/-! Where inodes and directory entries lie, and why the changes of a name operation keep to what is
journalled for them. -/
namespace Squint.Nova
open Squint.Lib

/-- The start of the page that `a` is in. -/
def pageOf (a : ℕ) : ℕ := a / pageSize * pageSize

/-- The journals, one for each processor, the inodes with their replicas and the entries that name a
parent, in log pages whose copies in the other log have pages of their own, apart from each other.
-/
structure Layout where
  cpus : ℕ
  journal : Fin cpus → Journal
  inodes : List InodeRef
  fathers : List ℕ
  deLen : ℕ → ℕ
  alterPage : ℕ → ℕ
  pair_eq : ∀ c, (journal c).pair = novaGetJournalPointers c
  apart : ∀ c c', c ≠ c' → (journal c).Clear (journal c').pair cachelineSize
  readable : ∀ n ∈ inodes, n.readable = true
  aligned : ∀ n ∈ inodes, n.piAddr % novaInodeSize = 0 ∧ n.alterPiAddr % novaInodeSize = 0
  nodup : (inodes.map (·.piAddr) ++ inodes.map (·.alterPiAddr)).Nodup
  clear : ∀ c, ∀ n ∈ inodes,
    (journal c).Clear n.piAddr novaInodeSize ∧ (journal c).Clear n.alterPiAddr novaInodeSize
  father_placed : ∀ d ∈ fathers, ParentPlaced d (deLen d)
  father_clear : ∀ c, ∀ d ∈ fathers,
    (journal c).Clear (pageOf d) pageSize ∧ (journal c).Clear (alterPage d) pageSize
  father_inode : ∀ d ∈ fathers, ∀ n ∈ inodes, ∀ p ∈ [pageOf d, alterPage d],
    ∀ x ∈ [n.piAddr, n.alterPiAddr], p + pageSize ≤ x ∨ x + novaInodeSize ≤ p
  father_father : ∀ d ∈ fathers, ∀ d' ∈ fathers, d = d' ∨ d + deLen d ≤ d' ∨ d' + deLen d' ≤ d
  father_alter : ∀ d ∈ fathers, ∀ d' ∈ fathers,
    pageOf d + pageSize ≤ alterPage d' ∨ alterPage d' + pageSize ≤ pageOf d

def fatherWords (d : ℕ) : List ℕ := [d + 16, d + 8]

theorem span_disjoint {x y a : ℕ} (hx : x % novaInodeSize = 0) (hy : y % novaInodeSize = 0)
    (h : x ≠ y) (ha : a ∈ span x) : a ∉ span y := by
  intro ha'
  have h₁ := span_lt ha
  have h₂ := span_lt ha'
  simp only [novaInodeSize, inodeWords] at *
  omega

namespace Layout

variable {L : Layout} {c c' : Fin L.cpus} {n n' : InodeRef} {d d' a : ℕ}

theorem piAddr_inj (hn : n ∈ L.inodes) (hn' : n' ∈ L.inodes) (h : n.piAddr = n'.piAddr) : n = n' :=
  List.inj_on_of_nodup_map (List.nodup_append.mp L.nodup).1 hn hn' h

theorem alterPiAddr_inj (hn : n ∈ L.inodes) (hn' : n' ∈ L.inodes)
    (h : n.alterPiAddr = n'.alterPiAddr) : n = n' :=
  List.inj_on_of_nodup_map (List.nodup_append.mp L.nodup).2.1 hn hn' h

theorem piAddr_ne_alterPiAddr (hn : n ∈ L.inodes) (hn' : n' ∈ L.inodes) :
    n.piAddr ≠ n'.alterPiAddr :=
  (List.nodup_append.mp L.nodup).2.2 _ (List.mem_map_of_mem hn) _ (List.mem_map_of_mem hn')

theorem span_pi_disjoint (hn : n ∈ L.inodes) (hn' : n' ∈ L.inodes) (h : n ≠ n')
    (ha : a ∈ span n.piAddr) : a ∉ span n'.piAddr :=
  span_disjoint (L.aligned n hn).1 (L.aligned n' hn').1 (fun he => h (piAddr_inj hn hn' he)) ha

theorem span_alter_disjoint (hn : n ∈ L.inodes) (hn' : n' ∈ L.inodes) (h : n ≠ n')
    (ha : a ∈ span n.alterPiAddr) : a ∉ span n'.alterPiAddr :=
  span_disjoint (L.aligned n hn).2 (L.aligned n' hn').2 (fun he => h (alterPiAddr_inj hn hn' he)) ha

theorem span_pi_alter_disjoint (hn : n ∈ L.inodes) (hn' : n' ∈ L.inodes) (ha : a ∈ span n.piAddr) :
    a ∉ span n'.alterPiAddr :=
  span_disjoint (L.aligned n hn).1 (L.aligned n' hn').2 (piAddr_ne_alterPiAddr hn hn') ha

/-- The words of a parent's entry, and the one that says where its copy is. -/
def logWords (L : Layout) (d : ℕ) : List ℕ :=
  (pageTail d + alterPageOff) :: (List.range (L.deLen d / 8)).map fun k => d + 8 * k

theorem mem_logWords : a ∈ L.logWords d ↔
    a = pageTail d + alterPageOff ∨ ∃ k < L.deLen d / 8, a = d + 8 * k := by
  simp [logWords, eq_comm]

theorem sixteen_le_deLen (hd : d ∈ L.fathers) : 16 ≤ L.deLen d :=
  (by decide : 16 ≤ novaDentryHeaderLen).trans (L.father_placed d hd).header_le

theorem word_mem_logWords {k : ℕ} (hk : k < L.deLen d / 8) : d + 8 * k ∈ L.logWords d :=
  mem_logWords.mpr (Or.inr ⟨k, hk, rfl⟩)

theorem tail_mem_logWords (L : Layout) (d : ℕ) : pageTail d + alterPageOff ∈ L.logWords d :=
  mem_logWords.mpr (Or.inl rfl)

theorem self_mem_logWords (hd : d ∈ L.fathers) : d ∈ L.logWords d := by
  have hlen := sixteen_le_deLen hd
  exact mem_logWords.mpr (Or.inr ⟨0, by omega, rfl⟩)

theorem logWords_page (hd : d ∈ L.fathers) (ha : a ∈ L.logWords d) :
    pageOf d ≤ a ∧ a < pageOf d + pageSize := by
  have hp := (L.father_placed d hd).fits_page
  unfold pageOf
  obtain rfl | ⟨k, hk, rfl⟩ := mem_logWords.mp ha
  · unfold pageTail alterPageOff logBlockTail pageSize
    omega
  · unfold logBlockTail pageSize at *
    omega

theorem fatherWords_subset (hd : d ∈ L.fathers) (ha : a ∈ fatherWords d) : a ∈ L.logWords d := by
  have hlen := (L.father_placed d hd).header_le
  unfold novaDentryHeaderLen at hlen
  simp only [fatherWords, List.mem_cons, List.not_mem_nil, or_false] at ha
  obtain rfl | rfl := ha
  · exact word_mem_logWords (k := 2) (by omega)
  · exact word_mem_logWords (k := 1) (by omega)

/-- What a rename changes in one entry is not part of another one. -/
theorem fatherWords_disjoint (hd : d ∈ L.fathers) (hd' : d' ∈ L.fathers) (h : d ≠ d')
    (ha : a ∈ fatherWords d) : a ∉ L.logWords d' := by
  have hp := L.father_placed d hd
  have hlen := hp.header_le
  have hpage := hp.fits_page
  unfold novaDentryHeaderLen at hlen
  simp only [fatherWords, List.mem_cons, List.not_mem_nil, or_false] at ha
  intro ha'
  obtain rfl | ⟨k, hk, rfl⟩ := mem_logWords.mp ha'
  · unfold pageTail alterPageOff logBlockTail pageSize at *
    omega
  · have := (L.father_father d hd d' hd').resolve_left h
    omega

theorem page_not_span {p : ℕ} (hd : d ∈ L.fathers) (hn : n ∈ L.inodes)
    (hp : p ∈ [pageOf d, L.alterPage d]) (ha : p ≤ a ∧ a < p + pageSize) :
    a ∉ span n.piAddr ∧ a ∉ span n.alterPiAddr := by
  have hf : ∀ x ∈ [n.piAddr, n.alterPiAddr], a ∉ span x := by
    intro x hx ha'
    have h₂ := span_lt ha'
    have := L.father_inode d hd n hn p hp x hx
    simp only [novaInodeSize, inodeWords] at *
    omega
  exact ⟨hf _ (by simp), hf _ (by simp)⟩

theorem logWords_not_span (hd : d ∈ L.fathers) (hn : n ∈ L.inodes) (ha : a ∈ L.logWords d) :
    a ∉ span n.piAddr ∧ a ∉ span n.alterPiAddr :=
  page_not_span hd hn (by simp) (logWords_page hd ha)

/-- The pages of copies. -/
def Copies (L : Layout) (a : ℕ) : Prop := ∃ d ∈ L.fathers, InCopy (L.alterPage d) a

theorem Copies.not_own (h : L.Copies a) : ¬(L.journal c).Own a := by
  obtain ⟨d, hd, h₁, h₂⟩ := h
  exact (L.father_clear c d hd).2.not_own h₁ h₂

theorem Copies.not_span (h : L.Copies a) (hn : n ∈ L.inodes) :
    a ∉ span n.piAddr ∧ a ∉ span n.alterPiAddr := by
  obtain ⟨d, hd, ha⟩ := h
  exact page_not_span hd hn (by simp) ha

theorem Copies.not_logWords (h : L.Copies a) (hd : d ∈ L.fathers) : a ∉ L.logWords d := by
  intro ha
  obtain ⟨d', hd', h₁⟩ := h
  have h₂ := logWords_page hd ha
  have := L.father_alter d hd d' hd'
  unfold InCopy at h₁
  omega

theorem span_not_own (hn : n ∈ L.inodes) (ha : a ∈ span n.piAddr ∨ a ∈ span n.alterPiAddr) :
    ¬(L.journal c).Own a := by
  obtain ha | ha := ha
  · have := span_lt ha
    refine (L.clear c n hn).1.not_own this.1 ?_
    simp only [novaInodeSize, inodeWords] at *
    omega
  · have := span_lt ha
    refine (L.clear c n hn).2.not_own this.1 ?_
    simp only [novaInodeSize, inodeWords] at *
    omega

theorem logWords_not_own (hd : d ∈ L.fathers) (ha : a ∈ L.logWords d) : ¬(L.journal c).Own a :=
  (L.father_clear c d hd).1.not_own (logWords_page hd ha).1 (logWords_page hd ha).2

theorem mod_eight (hn : n ∈ L.inodes) : n.piAddr % 8 = 0 := by
  have := (L.aligned n hn).1
  unfold novaInodeSize at this
  omega

/-- The words of replicas. -/
def Spares (cfg : Config) (L : Layout) (a : ℕ) : Prop :=
  cfg.metadataCsum = true ∧ ∃ n ∈ L.inodes, a ∈ span n.alterPiAddr

/-- The words of inodes and parents' entries. -/
def Mains (L : Layout) (a : ℕ) : Prop :=
  (∃ n ∈ L.inodes, a ∈ span n.piAddr) ∨ ∃ d ∈ L.fathers, a ∈ L.logWords d

def Words (cfg : Config) (L : Layout) (a : ℕ) : Prop := L.Mains a ∨ L.Spares cfg a

theorem Mains.not_spares {cfg : Config} (h : L.Mains a) : ¬L.Spares cfg a := by
  rintro ⟨-, n', hn', ha'⟩
  obtain ⟨n, hn, ha⟩ | ⟨d, hd, ha⟩ := h
  · exact span_pi_alter_disjoint hn hn' ha ha'
  · exact (logWords_not_span hd hn' ha).2 ha'

theorem Words.not_own {cfg : Config} (h : L.Words cfg a) : ¬(L.journal c).Own a := by
  obtain (⟨n, hn, ha⟩ | ⟨d, hd, ha⟩) | ⟨-, n, hn, ha⟩ := h
  · exact span_not_own hn (Or.inl ha)
  · exact logWords_not_own hd ha
  · exact span_not_own hn (Or.inr ha)

theorem Copies.not_words {cfg : Config} (h : L.Copies a) : ¬L.Words cfg a := by
  rintro ((⟨n, hn, ha⟩ | ⟨d, hd, ha⟩) | ⟨-, n, hn, ha⟩)
  · exact (h.not_span hn).1 ha
  · exact h.not_logWords hd ha
  · exact (h.not_span hn).2 ha

/-- A pointer of the journal of a processor. -/
def Pointer (L : Layout) (c : Fin L.cpus) (a : ℕ) : Prop :=
  a = (L.journal c).pair ∨ a = (L.journal c).pair + 8

/-- The words that a transaction in the journal of `c` has to leave in order: those of inodes and
entries, and the pointers of the other journals. -/
def Others (cfg : Config) (L : Layout) (c : Fin L.cpus) (a : ℕ) : Prop :=
  L.Words cfg a ∨ ∃ c', c' ≠ c ∧ L.Pointer c' a

theorem Pointer.own (h : L.Pointer c a) : (L.journal c).Own a := Or.inr h

theorem Pointer.not_words {cfg : Config} (h : L.Pointer c a) : ¬L.Words cfg a := fun hw =>
  hw.not_own h.own

theorem Pointer.not_spares {cfg : Config} (h : L.Pointer c a) : ¬L.Spares cfg a := fun hs =>
  h.not_words (Or.inr hs)

theorem Pointer.not_own (h : L.Pointer c' a) (hc : c' ≠ c) : ¬(L.journal c).Own a := by
  have hb : (L.journal c').pair ≤ a ∧ a < (L.journal c').pair + cachelineSize := by
    unfold Pointer at h
    unfold cachelineSize
    omega
  exact (L.apart c c' hc.symm).not_own hb.1 hb.2

theorem Others.not_own {cfg : Config} (h : L.Others cfg c a) : ¬(L.journal c).Own a := by
  obtain hw | ⟨c', hc, hp⟩ := h
  · exact hw.not_own
  · exact hp.not_own hc

theorem Copies.not_others {cfg : Config} (h : L.Copies a) : ¬L.Others cfg c a := by
  rintro (hw | ⟨c', -, hp⟩)
  · exact h.not_words hw
  · exact h.not_own hp.own

/-- The entries are as the layout says, as far as their copies matter. -/
def Described (cfg : Config) (L : Layout) (s : ℕ → ℕ) : Prop :=
  cfg.metadataCsum = true → ∀ d ∈ L.fathers, ParentFound s d (L.deLen d) (L.alterPage d)

theorem Described.congr {cfg : Config} {s s' : ℕ → ℕ} (h : L.Described cfg s)
    (hs : ∀ d ∈ L.fathers, s' d = s d ∧
      s' (pageTail d + alterPageOff) = s (pageTail d + alterPageOff)) : L.Described cfg s' :=
  fun hc d hd => (h hc d hd).congr (hs d hd).1 (hs d hd).2

end Layout

namespace Change

variable {cfg : Config} {L : Layout} {c c' : Change} {a : ℕ}

/-- The words of the inode or entry that is changed. -/
def region : Change → List ℕ
  | tail inode _ | validate inode | invalidate inode _ _ => span inode.piAddr
  | father entry _ => fatherWords entry

def key : Change → ℕ
  | tail inode _ | validate inode | invalidate inode _ _ => inode.piAddr
  | father entry _ => entry

/-- It is about something in the layout. -/
def Known (L : Layout) : Change → Prop
  | tail inode _ | validate inode | invalidate inode _ _ => inode ∈ L.inodes
  | father entry _ => entry ∈ L.fathers

instance (L : Layout) : (c : Change) → Decidable (c.Known L)
  | tail inode _ | validate inode | invalidate inode _ _ =>
    inferInstanceAs (Decidable (inode ∈ L.inodes))
  | father entry _ => inferInstanceAs (Decidable (entry ∈ L.fathers))

/-- The code of the change, where the entries are as the layout says. -/
def placedCode (cfg : Config) (L : Layout) : Change → Code Unit
  | tail inode update => (tail inode update).code cfg
  | validate inode => (validate inode).code cfg
  | invalidate inode update epochId => (invalidate inode update epochId).code cfg
  | father d ino => changePlacedParent cfg d (L.deLen d) (L.alterPage d) ino

theorem Known.mains (h : c.Known L) (ha : a ∈ c.region) : L.Mains a := by
  cases c with
  | tail inode update | validate inode | invalidate inode update epochId =>
    exact Or.inl ⟨inode, h, ha⟩
  | father entry ino => exact Or.inr ⟨entry, h, Layout.fatherWords_subset h ha⟩

theorem region_disjoint (h : c.Known L) (h' : c'.Known L) (hk : c.key ≠ c'.key)
    (ha : a ∈ c.region) : a ∉ c'.region := by
  have hinode : ∀ n ∈ L.inodes, ∀ n' ∈ L.inodes, n.piAddr ≠ n'.piAddr →
      a ∈ span n.piAddr → a ∉ span n'.piAddr := fun n hn n' hn' hne =>
    L.span_pi_disjoint hn hn' fun he => hne (by rw [he])
  cases c with
  | tail n _ | validate n | invalidate n _ _ =>
    cases c' with
    | tail n' _ | validate n' | invalidate n' _ _ => exact hinode n h n' h' hk ha
    | father d _ => exact fun ha' => (L.logWords_not_span h' h (L.fatherWords_subset h' ha')).1 ha
  | father d _ =>
    cases c' with
    | tail n' _ | validate n' | invalidate n' _ _ =>
      exact (L.logWords_not_span h h' (L.fatherWords_subset h ha)).1
    | father d' _ =>
      exact fun ha' => L.fatherWords_disjoint h h' hk ha (L.fatherWords_subset h' ha')

def words (cfg : Config) : Change → List ℕ
  | tail inode _ => if cfg.metadataCsum then span inode.piAddr else [inode.piAddr + logTailOff]
  | validate inode => if cfg.metadataCsum then span inode.piAddr else [inode.piAddr]
  | invalidate inode _ _ =>
    if cfg.metadataCsum then span inode.piAddr
    else [inode.piAddr + logTailOff, inode.piAddr, inode.piAddr + deleteEpochIdOff]
  | father entry _ => fatherWords entry

theorem covered_items (h : c.Known L) : covered (c.items cfg) = c.words cfg := by
  have hw : ∀ {x : ℕ}, x % 8 = 0 → wordOf (x + logTailOff) = x + logTailOff ∧
      wordOf (x + validOff) = x ∧ wordOf (x + deleteEpochIdOff) = x + deleteEpochIdOff ∧
      wordOf (x + dentryInoOff) = x + 16 ∧ wordOf (x + dentryCsumOff) = x + 8 := fun hx =>
    ⟨wordOf_add hx _, wordOf_add hx _, wordOf_add hx _, wordOf_add hx _, wordOf_add hx _⟩
  cases c with
  | tail n _ | validate n | invalidate n _ _ =>
    have hn := hw (L.mod_eight h)
    cases hc : cfg.metadataCsum <;> simp [items, words, covered, Item.words, hc, hn, span]
  | father d _ =>
    simp [items, words, fatherWords, covered, Item.words, hw (L.father_placed d h).aligned]

/-- What is journalled is part of what is changed. -/
theorem mem_region_of_words (ha : a ∈ c.words cfg) : a ∈ c.region := by
  have hspan : ∀ {pi : ℕ},
      pi + logTailOff ∈ span pi ∧ pi ∈ span pi ∧ pi + deleteEpochIdOff ∈ span pi :=
    ⟨mem_span.mpr ⟨9, by decide, rfl⟩, mem_span.mpr ⟨0, by decide, rfl⟩,
      mem_span.mpr ⟨13, by decide, rfl⟩⟩
  cases c with
  | tail n _ | validate n | invalidate n _ _ =>
    cases hc : cfg.metadataCsum
    · simp only [words, hc, Bool.false_eq_true, if_false, List.mem_cons, List.not_mem_nil,
        or_false] at ha
      rcases ha with rfl | rfl | rfl <;> simp [region, hspan]
    · simpa [words, region, hc] using ha
  | father d _ => exact ha

theorem touched_mem {pi : ℕ} {ws : List ℕ} (hspan : cfg.metadataCsum = true → ws = span pi)
    (htail : cfg.metadataCsum = false → pi + logTailOff ∈ ws) (ha : Touched cfg pi a) : a ∈ ws := by
  obtain rfl | ⟨hc, ha⟩ := ha
  · cases hc : cfg.metadataCsum
    · exact htail hc
    · rw [hspan hc]
      exact mem_span.mpr ⟨9, by decide, rfl⟩
  · rwa [hspan hc]

theorem within_placedCode (h : c.Known L) :
    Prog.Within (fun a => a ∈ c.words cfg ∨ L.Copies a) (c.placedCode cfg L) := by
  have hzero : ∀ pi, pi ∈ span pi := fun pi => mem_span.mpr ⟨0, by decide, rfl⟩
  cases c with
  | tail n update =>
    refine (within_novaUpdateInode cfg n update (L.mod_eight h)).mono fun a ha =>
      Or.inl (touched_mem ?_ ?_ ha)
    · exact fun hc => by simp [words, hc]
    · exact fun hc => by simp [words, hc]
  | validate n =>
    have hn := L.mod_eight h
    refine .bind (within_storeBytes (Or.inl ?_)) fun _ =>
      (within_novaUpdateInodeChecksum cfg hn).mono fun a ha => Or.inl ?_
    · rw [show wordOf (n.piAddr + validOff) = n.piAddr from wordOf_add hn validOff]
      cases hc : cfg.metadataCsum <;> simp [words, hc, hzero]
    · rw [ha.2]
      simpa [words, ha.1] using mem_span.mpr ⟨14, by decide, rfl⟩
  | invalidate n update epochId =>
    have hn := L.mod_eight h
    refine .bind (within_storeBytes (Or.inl ?_)) fun _ => .bind (.store (Or.inl ?_)) fun _ =>
      (within_novaUpdateInode cfg n update hn).mono fun a ha => Or.inl (touched_mem ?_ ?_ ha)
    · rw [show wordOf (n.piAddr + validOff) = n.piAddr from wordOf_add hn validOff]
      cases hc : cfg.metadataCsum <;> simp [words, hc, hzero]
    · have hepoch : n.piAddr + deleteEpochIdOff ∈ span n.piAddr := mem_span.mpr ⟨13, by decide, rfl⟩
      cases hc : cfg.metadataCsum <;> simp [words, hc, hepoch]
    · exact fun hc => by simp [words, hc]
    · exact fun hc => by simp [words, hc]
  | father d ino =>
    exact (within_changePlacedParent (L.father_placed d h) ino).mono fun a ha =>
      ha.imp id fun ha => ⟨d, h, ha⟩

theorem dependsOn_placedCode {W : ℕ → Prop} (h : c.Known L) (hW : ∀ a, L.Mains a → W a) :
    Prog.DependsOn W (c.placedCode cfg L) := by
  have hspan : ∀ n ∈ L.inodes, ∀ a ∈ span n.piAddr, W a := fun n hn a ha =>
    hW a (Or.inl ⟨n, hn, ha⟩)
  cases c with
  | tail n update => exact dependsOn_novaUpdateInode cfg n update (L.mod_eight h) (hspan n h)
  | validate n =>
    have hn := L.mod_eight h
    refine .bind (dependsOn_storeBytes (hspan n h _ ?_)) fun _ =>
      dependsOn_novaUpdateInodeChecksum cfg hn (hspan n h)
    exact mem_span.mpr ⟨0, by decide, wordOf_add hn validOff⟩
  | invalidate n update epochId =>
    have hn := L.mod_eight h
    refine .bind (dependsOn_storeBytes (hspan n h _ ?_)) fun _ => .bind (.emitAll W _) fun _ =>
      dependsOn_novaUpdateInode cfg n update hn (hspan n h)
    exact mem_span.mpr ⟨0, by decide, wordOf_add hn validOff⟩
  | father d ino =>
    exact dependsOn_changePlacedParent (L.father_placed d h) ino fun k hk =>
      hW _ (Or.inr ⟨d, h, Layout.word_mem_logWords hk⟩)

theorem writesBack_placedCode (h : c.Known L) :
    Prog.WritesBack (· ∈ c.region) (c.placedCode cfg L) := by
  cases c with
  | tail n update => exact writesBack_novaUpdateInode cfg n update
  | validate n => exact .bind_last fun _ => writesBack_novaUpdateInodeChecksum cfg n.piAddr
  | invalidate n update epochId =>
    exact .bind_last fun _ => .bind_last fun _ => writesBack_novaUpdateInode cfg n update
  | father d ino =>
    exact writesBack_changePlacedParent (L.father_placed d h) ino fun a ha hcopy =>
      Layout.Copies.not_logWords ⟨d, h, hcopy⟩ h (Layout.fatherWords_subset h ha)

theorem ops_code {m : Memory} (h : c.Known L) (hm : L.Described cfg (nowOf m)) :
    (c.code cfg).ops m = (c.placedCode cfg L).ops m := by
  cases c with
  | tail n _ | validate n | invalidate n _ _ => rfl
  | father d ino => exact ops_father (L.father_placed d h) ino fun hc => hm hc d h

theorem unchanged {m : Memory} (h : c.Known L) (ha : a ∉ c.region) (hcopy : ¬L.Copies a) :
    nowOf ((c.placedCode cfg L).after m) a = nowOf m a :=
  (within_placedCode h).now_after fun hw => hw.elim (fun hw => ha (mem_region_of_words hw)) hcopy

theorem not_region_of_logWords {d : ℕ} (h : c.Known L) (hd : d ∈ L.fathers)
    (hne : ∀ ino, c ≠ father d ino) (ha : a ∈ L.logWords d) : a ∉ c.region := by
  cases c with
  | tail n _ | validate n | invalidate n _ _ => exact (L.logWords_not_span hd h ha).1
  | father d' ino =>
    have hd' : d' ≠ d := fun he => hne ino (by rw [he])
    exact fun hr => L.fatherWords_disjoint h hd hd' hr ha

/-- No change touches the words that say how long an entry is and where its copy is. -/
theorem described_placedCode {m : Memory} (h : c.Known L) (hm : L.Described cfg (nowOf m)) :
    L.Described cfg (nowOf ((c.placedCode cfg L).after m)) := by
  have hkeep : ∀ d ∈ L.fathers, ∀ a ∈ L.logWords d, a ∉ fatherWords d →
      nowOf ((c.placedCode cfg L).after m) a = nowOf m a := by
    intro d hd a ha hnot
    refine unchanged h ?_ fun hcopy => hcopy.not_logWords hd ha
    by_cases hc : ∃ ino, c = father d ino
    · obtain ⟨ino, rfl⟩ := hc
      exact hnot
    · exact not_region_of_logWords h hd (fun ino he => hc ⟨ino, he⟩) ha
  refine hm.congr fun d hd => ?_
  have htail := (L.father_placed d hd).pageTail_le
  have hlen := (L.father_placed d hd).header_le
  unfold novaDentryHeaderLen at hlen
  refine ⟨hkeep d hd _ (L.self_mem_logWords hd) ?_,
    hkeep d hd _ (L.tail_mem_logWords d) ?_⟩ <;>
    simp only [fatherWords, List.mem_cons, List.not_mem_nil, or_false] <;> omega

end Change

section Lists

variable {cfg : Config} {L : Layout} {cs : List Change}

def placedChanges (cfg : Config) (L : Layout) : List Change → Code Unit
  | [] => return ()
  | c :: cs => do
    c.placedCode cfg L
    placedChanges cfg L cs

theorem within_placedChanges (h : ∀ c ∈ cs, c.Known L) :
    Prog.Within (fun a => (∃ c ∈ cs, a ∈ c.words cfg) ∨ L.Copies a) (placedChanges cfg L cs) := by
  induction cs with
  | nil => exact .pure _ _
  | cons c cs ih =>
    refine .bind ((Change.within_placedCode (h c (by simp))).mono fun a ha =>
        ha.imp (fun hw => ⟨c, by simp, hw⟩) id) fun _ =>
      (ih fun c' hc => h c' (by simp [hc])).mono fun a ha => ha.imp ?_ id
    rintro ⟨c', hc', hw⟩
    exact ⟨c', by simp [hc'], hw⟩

theorem dependsOn_placedChanges {W : ℕ → Prop} (h : ∀ c ∈ cs, c.Known L)
    (hW : ∀ a, L.Mains a → W a) : Prog.DependsOn W (placedChanges cfg L cs) := by
  induction cs with
  | nil => exact .pure W _
  | cons c cs ih =>
    exact .bind (Change.dependsOn_placedCode (h c (by simp)) hW) fun _ =>
      ih fun c' hc => h c' (by simp [hc])

/-- What one change writes back, no later one stores to. -/
theorem writesBack_placedChanges (h : ∀ c ∈ cs, c.Known L) (hk : (cs.map Change.key).Nodup) :
    Prog.WritesBack (fun a => ∃ c ∈ cs, a ∈ c.region) (placedChanges cfg L cs) := by
  induction cs with
  | nil =>
    rintro m a ⟨c, hc, -⟩
    simp at hc
  | cons c cs ih =>
    rw [List.map_cons, List.nodup_cons] at hk
    have hcs : ∀ c' ∈ cs, c'.Known L := fun c' hc => h c' (by simp [hc])
    have hfirst : Prog.WritesBack (· ∈ c.region) (placedChanges cfg L (c :: cs)) := by
      refine (Change.writesBack_placedCode (h c (by simp))).bind_first
        (fun _ => within_placedChanges hcs) fun a ha => ?_
      rintro (⟨c', hc', ha'⟩ | hcopy)
      · have hne : c.key ≠ c'.key := fun he => hk.1 (he ▸ List.mem_map_of_mem hc')
        exact Change.region_disjoint (h c (by simp)) (hcs c' hc') hne ha
          (Change.mem_region_of_words ha')
      · have hw : L.Words cfg a := Or.inl ((h c (by simp)).mains ha)
        exact hcopy.not_words hw
    have hlast : Prog.WritesBack (fun a => ∃ c' ∈ cs, a ∈ c'.region)
        (placedChanges cfg L (c :: cs)) := .bind_last fun _ => ih hcs hk.2
    refine (hfirst.or hlast).mono ?_
    rintro a ⟨c', hc', ha⟩
    obtain rfl | hc' := List.mem_cons.mp hc'
    · exact Or.inl ha
    · exact Or.inr ⟨c', hc', ha⟩

theorem ops_changesCode {m : Memory} (h : ∀ c ∈ cs, c.Known L) (hm : L.Described cfg (nowOf m)) :
    (changesCode cfg cs).ops m = (placedChanges cfg L cs).ops m := by
  induction cs generalizing m with
  | nil => rfl
  | cons c cs ih =>
    have hops := Change.ops_code (h c (by simp)) hm
    simp only [changesCode, placedChanges, Prog.ops_bind, hops, Prog.after_congr hops]
    rw [ih (fun c' hc => h c' (by simp [hc])) (Change.described_placedCode (h c (by simp)) hm)]

end Lists

/-- An operation on what is in the layout, and on no inode twice. -/
structure NameOp.Valid (L : Layout) (op : NameOp) : Prop where
  known : ∀ c ∈ op.changes, c.Known L
  distinct : (op.changes.map Change.key).Nodup

namespace NameOp

variable {cfg : Config} {L : Layout} {op : NameOp}

theorem mem_covered_items (h : op.Valid L) {a : ℕ} :
    a ∈ covered (op.items cfg) ↔ ∃ c ∈ op.changes, a ∈ c.words cfg := by
  rw [mem_covered]
  constructor
  · rintro ⟨it, hit, ha⟩
    obtain ⟨c, hc, hit⟩ := List.mem_flatMap.mp ((op.items_perm cfg).mem_iff.mp hit)
    refine ⟨c, hc, ?_⟩
    rw [← Change.covered_items (h.known c hc)]
    exact mem_covered.mpr ⟨it, hit, ha⟩
  · rintro ⟨c, hc, ha⟩
    rw [← Change.covered_items (h.known c hc)] at ha
    obtain ⟨it, hit, ha⟩ := mem_covered.mp ha
    exact ⟨it, (op.items_perm cfg).mem_iff.mpr (List.mem_flatMap.mpr ⟨c, hc, hit⟩), ha⟩

theorem Valid.mains (h : op.Valid L) {a : ℕ} (ha : a ∈ covered (op.items cfg)) : L.Mains a := by
  obtain ⟨c, hc, ha⟩ := (mem_covered_items h).mp ha
  exact (h.known c hc).mains (Change.mem_region_of_words ha)

theorem length_items (cfg : Config) (op : NameOp) :
    (op.items cfg).length < novaMaxJournalLength := by
  have hone : ∀ n a b c, (inodeItems cfg n a b c).length ≤ 3 := by
    intro n a b c
    unfold inodeItems
    split_ifs <;> simp
  have hopt : ∀ (o : Option InodeRef) a b c,
      ((o.map fun n => inodeItems cfg n a b c).getD []).length ≤ 3 := by
    intro o a b c
    cases o with
    | none => simp
    | some n => exact hone n a b c
  unfold novaMaxJournalLength
  cases op with
  | create inode dir update =>
    simp only [items, List.length_append]
    have h₁ := hone inode true false false
    have h₂ := hone dir true false true
    omega
  | link inode dir _ _ invalidate _ =>
    simp only [items, List.length_append]
    have h₁ := hone inode false invalidate false
    have h₂ := hone dir false invalidate true
    omega
  | rename r =>
    simp only [items, List.length_append]
    have h₁ := hone r.oldInode false false false
    have h₂ := hone r.oldDir false false true
    have h₃ := hopt r.newInode false r.invalidateNewInode false
    have h₄ := hopt r.newDir false false true
    have h₅ : ((r.fatherEntry.map fun d =>
        [Item.field (d + dentryInoOff), Item.field (d + dentryCsumOff)]).getD []).length ≤ 2 := by
      cases r.fatherEntry <;> simp
    omega

/-- An item for an inode is there only with metadata checksums. -/
theorem item_cases (h : op.Valid L) {it : Item} (hit : it ∈ op.items cfg) :
    (∃ a, it = .field a) ∨
      ∃ n ∈ L.inodes, cfg.metadataCsum = true ∧ it = .inode n.piAddr n.alterPiAddr := by
  obtain ⟨c, hc, hit⟩ := List.mem_flatMap.mp ((op.items_perm cfg).mem_iff.mp hit)
  have hk := h.known c hc
  cases c with
  | tail n _ | validate n | invalidate n _ _ =>
    cases hcsum : cfg.metadataCsum
    · left
      simp only [Change.items, hcsum, Bool.false_eq_true, if_false, List.mem_cons, List.not_mem_nil,
        or_false] at hit
      rcases hit with rfl | rfl | rfl <;> exact ⟨_, rfl⟩
    · right
      simp only [Change.items, hcsum, if_true, List.mem_singleton] at hit
      exact ⟨n, hk, rfl, hit⟩
  | father d _ =>
    left
    simp only [Change.items, List.mem_cons, List.not_mem_nil, or_false] at hit
    rcases hit with rfl | rfl <;> exact ⟨_, rfl⟩

theorem replica_spares (h : op.Valid L) {it : Item} (hit : it ∈ op.items cfg) {a : ℕ}
    (ha : a ∈ it.replica) : L.Spares cfg a := by
  obtain ⟨x, rfl⟩ | ⟨n, hn, hc, rfl⟩ := item_cases h hit
  · simp [Item.replica] at ha
  · exact ⟨hc, n, hn, ha⟩

theorem Valid.fits (h : op.Valid L) (c : Fin L.cpus) :
    Fits cfg (L.journal c) (op.items cfg) where
  short := length_items cfg op
  own it hit a ha :=
    have hw : L.Words cfg a := Or.inl (h.mains (mem_covered.mpr ⟨it, hit, ha⟩))
    hw.not_own
  replica_own it hit a ha := Layout.Words.not_own (Or.inr (replica_spares h hit ha))
  replica it hit it' hit' a ha ha' :=
    (h.mains (mem_covered.mpr ⟨it', hit', ha'⟩)).not_spares (replica_spares h hit ha)
  mode it hit ht := by
    obtain ⟨x, rfl⟩ | ⟨n, hn, hc, rfl⟩ := item_cases h hit
    · simp [Item.type, journalInode, journalEntry] at ht
    · exact hc

end NameOp

end Squint.Nova
