import Squint.Nova.Layout

/-! Runs of name operations with failures in between. What is seen of the inodes and entries after
such a run is what the abstract operations make of it, one after the other; one that a failure
stopped is there as a whole or not at all. -/
namespace Squint.Nova
open Squint.Lib

def mirrorOne (cfg : Config) (n : InodeRef) (s : ℕ → ℕ) (a : ℕ) : ℕ :=
  if cfg.metadataCsum = true ∧ a ∈ span n.alterPiAddr then s (n.piAddr + (a - n.alterPiAddr))
  else s a

def mirror (cfg : Config) : List InodeRef → (ℕ → ℕ) → ℕ → ℕ
  | [], s => s
  | n :: ns, s => mirror cfg ns (mirrorOne cfg n s)

/-- Checksums are right, and parents' entries are as the layout says. -/
structure Layout.Intact (cfg : Config) (L : Layout) (s : ℕ → ℕ) : Prop where
  csums : ∀ n ∈ L.inodes, Sealed cfg s n.piAddr
  fatherCsums : ∀ d ∈ L.fathers, DentrySealed cfg s d (L.deLen d)
  described : L.Described cfg s

/-- In addition, the replicas of inodes are up to date. -/
structure Layout.Good (cfg : Config) (L : Layout) (s : ℕ → ℕ) : Prop extends L.Intact cfg s where
  mirrored : cfg.metadataCsum = true → ∀ n ∈ L.inodes, ∀ k < inodeWords,
    s (n.alterPiAddr + 8 * k) = s (n.piAddr + 8 * k)

theorem Layout.Intact.congr {cfg : Config} {L : Layout} {s s' : ℕ → ℕ} (h : L.Intact cfg s)
    (hs : ∀ a, L.Mains a → s' a = s a) : L.Intact cfg s' := by
  have hlog : ∀ d ∈ L.fathers, ∀ a ∈ L.logWords d, s' a = s a := fun d hd a ha =>
    hs a (Or.inr ⟨d, hd, ha⟩)
  refine ⟨fun n hn => (h.csums n hn).congr fun a ha => hs a (Or.inl ⟨n, hn, ha⟩), fun d hd => ?_,
    h.described.congr fun d hd => ?_⟩
  · exact (h.fatherCsums d hd).congr (L.sixteen_le_deLen hd) fun k hk =>
      hlog d hd _ (word_mem_logWords hk)
  · exact ⟨hlog d hd d (L.self_mem_logWords hd), hlog d hd _ (L.tail_mem_logWords d)⟩

section Mirror

variable {cfg : Config} {L : Layout} {ns : List InodeRef} {s : ℕ → ℕ}

theorem mirrorOne_of_not_spares {n : InodeRef} (hn : n ∈ L.inodes) {a : ℕ} (ha : ¬L.Spares cfg a) :
    mirrorOne cfg n s a = s a :=
  if_neg fun h => ha ⟨h.1, n, hn, h.2⟩

theorem mirror_of_not_spares (hns : ∀ n ∈ ns, n ∈ L.inodes) {a : ℕ} (ha : ¬L.Spares cfg a) :
    mirror cfg ns s a = s a := by
  induction ns generalizing s with
  | nil => rfl
  | cons n ns ih =>
    rw [mirror, ih fun n' hn => hns n' (by simp [hn]), mirrorOne_of_not_spares (hns n (by simp)) ha]

theorem mirror_of_not_mem (hns : ∀ n ∈ ns, n ∈ L.inodes) {n : InodeRef} (hn : n ∈ L.inodes)
    (hnot : n ∉ ns) {a : ℕ} (ha : a ∈ span n.alterPiAddr) : mirror cfg ns s a = s a := by
  induction ns generalizing s with
  | nil => rfl
  | cons n' ns ih =>
    have hne : n ≠ n' := fun he => hnot (by simp [he])
    rw [mirror, ih (fun n'' h => hns n'' (by simp [h])) fun h => hnot (by simp [h]), mirrorOne,
      if_neg]
    rintro ⟨-, hin⟩
    exact Layout.span_alter_disjoint hn (hns n' (by simp)) hne ha hin

theorem mirror_of_mem (hc : cfg.metadataCsum = true) (hns : ∀ n ∈ ns, n ∈ L.inodes) {n : InodeRef}
    (hn : n ∈ ns) {k : ℕ} (hk : k < inodeWords) :
    mirror cfg ns s (n.alterPiAddr + 8 * k) = s (n.piAddr + 8 * k) := by
  have hmain : ∀ n' ∈ L.inodes, ¬L.Spares cfg (n'.piAddr + 8 * k) := fun n' hn' =>
    Layout.Mains.not_spares (Or.inl ⟨n', hn', mem_span_of_lt hk⟩)
  induction ns generalizing s with
  | nil => simp at hn
  | cons n' ns ih =>
    have hns' : ∀ n ∈ ns, n ∈ L.inodes := fun n'' h => hns n'' (by simp [h])
    rw [mirror]
    by_cases hmem : n ∈ ns
    · rw [ih hns' hmem, mirrorOne_of_not_spares (hns n' (by simp)) (hmain n (hns n hn))]
    · obtain rfl : n = n' := (List.mem_cons.mp hn).resolve_right hmem
      rw [mirror_of_not_mem hns' (hns n hn) hmem (mem_span_of_lt hk), mirrorOne,
        if_pos ⟨hc, mem_span_of_lt hk⟩, Nat.add_sub_cancel_left]

variable {W : ℕ → Prop} (hW : ∀ a, L.Words cfg a → W a)
end Mirror

namespace NameOp

variable {cfg : Config} {L : Layout} {c : Fin L.cpus} {op : NameOp} {old : ℕ → ℕ}

/-- The words after the changes, before the replicas are brought up to date. -/
def mid (cfg : Config) (op : NameOp) (s : ℕ → ℕ) : ℕ → ℕ :=
  nowOf ((changesCode cfg op.changes).after (restart s))

def result (cfg : Config) (op : NameOp) (s : ℕ → ℕ) : ℕ → ℕ :=
  mirror cfg op.replicated (op.mid cfg s)

theorem mem_replicated {n : InodeRef} :
    n ∈ op.replicated ↔ ∃ c ∈ op.changes, c.inode? = some n := by
  cases op with
  | create inode dir update => simp [replicated, changes, eq_comm, or_comm]
  | link inode dir _ _ invalidate _ => simp [replicated, changes, eq_comm]
  | rename r =>
    cases hn : r.newInode <;> cases hd : r.newDir <;> cases hf : r.fatherEntry <;>
      simp [replicated, changes, hn, hd, hf, eq_comm]

theorem Valid.replicated_mem (h : op.Valid L) {n : InodeRef} (hn : n ∈ op.replicated) :
    n ∈ L.inodes := by
  obtain ⟨c, hc, hi⟩ := mem_replicated.mp hn
  have hk := h.known c hc
  cases c with
  | tail n' _ | validate n' | invalidate n' _ _ =>
    obtain rfl : n' = n := by simpa using hi
    exact hk
  | father d _ => simp at hi

theorem Valid.mid_eq (h : op.Valid L) (hd : L.Described cfg old) :
    op.mid cfg old = nowOf ((placedChanges cfg L op.changes).after (restart old)) := by
  rw [mid, Prog.after_congr (ops_changesCode h.known hd)]

theorem Valid.mid_of_not_region (h : op.Valid L) (hd : L.Described cfg old) {a : ℕ}
    (ha : ∀ c ∈ op.changes, a ∉ c.region) (hcopy : ¬L.Copies a) : op.mid cfg old a = old a := by
  rw [h.mid_eq hd]
  refine (within_placedChanges h.known).now_after ?_
  rintro (⟨c, hc, hw⟩ | hin)
  · exact ha c hc (Change.mem_region_of_words hw)
  · exact hcopy hin

theorem Valid.respects (h : op.Valid L) (hg : L.Good cfg old) :
    Respects cfg (L.journal c) (L.Others cfg c) old (op.mid cfg old) (op.items cfg)
      (placedChanges cfg L op.changes) := by
  rw [h.mid_eq hg.described]
  apply Respects.of_dependsOn (h.fits c)
  · exact fun a ha => ha.not_own
  · exact fun a ha => Or.inl (Or.inl (h.mains ha))
  · exact fun it hit a ha => Or.inl (Or.inr (replica_spares h hit ha))
  · intro it hit
    obtain ⟨x, rfl⟩ | ⟨n, hn, hc, rfl⟩ := item_cases h hit
    · trivial
    · exact hg.mirrored hc n hn
  · refine (within_placedChanges h.known).mono fun a ha => ha.imp (mem_covered_items h).mpr ?_
    rintro hcopy (ho | ho)
    · exact hcopy.not_others ho
    · exact hcopy.not_own ho
  · exact dependsOn_placedChanges h.known fun a ha => Or.inl (Or.inl ha)
  · refine (writesBack_placedChanges h.known h.distinct).mono fun a ha => ?_
    obtain ⟨c, hc, ha⟩ := (mem_covered_items h).mp ha
    exact ⟨c, hc, Change.mem_region_of_words ha⟩

end NameOp

section Invariant

variable {cfg : Config} {L : Layout} {c : Change} {m : Memory}

theorem Change.not_span_of_region (h : c.Known L) {n : InodeRef} (hn : n ∈ L.inodes)
    (hne : c.inode? ≠ some n) {a : ℕ} (ha : a ∈ c.region) : a ∉ span n.piAddr := by
  cases c with
  | tail n' _ | validate n' | invalidate n' _ _ =>
    have hnn : n' ≠ n := fun he => hne (by simp [he])
    exact L.span_pi_disjoint h hn hnn ha
  | father d _ => exact (L.logWords_not_span h hn (L.fatherWords_subset h ha)).1

/-- The inodes that a change is not about stay as they are. -/
theorem Change.unchanged_span (h : c.Known L) {n : InodeRef} (hn : n ∈ L.inodes)
    (hne : c.inode? ≠ some n) {a : ℕ} (ha : a ∈ span n.piAddr) :
    nowOf ((c.placedCode cfg L).after m) a = nowOf m a :=
  unchanged h (fun hr => not_span_of_region h hn hne hr ha) fun hcopy => (hcopy.not_span hn).1 ha

theorem Change.sealed_placedCode (h : c.Known L)
    (hs : ∀ n ∈ L.inodes, Sealed cfg (nowOf m) n.piAddr) :
    ∀ n ∈ L.inodes, Sealed cfg (nowOf ((c.placedCode cfg L).after m)) n.piAddr := by
  intro n hn
  have hpi := L.mod_eight hn
  by_cases hi : c.inode? = some n
  · cases c with
    | tail n' u =>
      obtain rfl : n' = n := by simpa using hi
      exact sealed_novaUpdateInode cfg n' u hpi m
    | validate n' =>
      obtain rfl : n' = n := by simpa using hi
      rw [placedCode, code, Prog.after_bind]
      exact sealed_novaUpdateInodeChecksum cfg hpi _
    | invalidate n' u e =>
      obtain rfl : n' = n := by simpa using hi
      rw [placedCode, code, Prog.after_bind, Prog.after_bind]
      exact sealed_novaUpdateInode cfg n' u hpi _
    | father d _ => simp at hi
  · exact (hs n hn).congr fun a ha => Change.unchanged_span h hn hi ha

/-- An entry that a change is not about stays as it is. -/
theorem Change.unchanged_logWords (h : c.Known L) {d : ℕ} (hd : d ∈ L.fathers)
    (hne : ∀ ino, c ≠ father d ino) {a : ℕ} (ha : a ∈ L.logWords d) :
    nowOf ((c.placedCode cfg L).after m) a = nowOf m a :=
  unchanged h (not_region_of_logWords h hd hne ha) fun hcopy => hcopy.not_logWords hd ha

theorem Change.dentrySealed_placedCode (h : c.Known L)
    (hs : ∀ d ∈ L.fathers, DentrySealed cfg (nowOf m) d (L.deLen d)) :
    ∀ d ∈ L.fathers, DentrySealed cfg (nowOf ((c.placedCode cfg L).after m)) d (L.deLen d) := by
  intro d hd
  by_cases hc : ∃ ino, c = father d ino
  · obtain ⟨ino, rfl⟩ := hc
    rw [placedCode, changePlacedParent, Prog.after_bind]
    exact dentrySealed_sealPlacedParent (L.father_placed d hd)
      (fun k hk hcopy =>
        Layout.Copies.not_logWords ⟨d, hd, hcopy⟩ hd (Layout.word_mem_logWords hk)) _
  · exact (hs d hd).congr (L.sixteen_le_deLen hd) fun k hk =>
      unchanged_logWords h hd (fun ino he => hc ⟨ino, he⟩) (Layout.word_mem_logWords hk)

theorem intact_placedChanges {cs : List Change} (h : ∀ c ∈ cs, c.Known L)
    (hm : L.Intact cfg (nowOf m)) : L.Intact cfg (nowOf ((placedChanges cfg L cs).after m)) := by
  induction cs generalizing m with
  | nil => exact hm
  | cons c cs ih =>
    have hc := h c (by simp)
    rw [placedChanges, Prog.after_bind]
    exact ih (fun c' hc' => h c' (by simp [hc'])) ⟨Change.sealed_placedCode hc hm.csums,
      Change.dentrySealed_placedCode hc hm.fatherCsums, Change.described_placedCode hc hm.described⟩

/-- Operations keep checksums and replicas in order. -/
theorem NameOp.Valid.good {op : NameOp} {s : ℕ → ℕ} (h : op.Valid L) (hg : L.Good cfg s) :
    L.Good cfg (op.result cfg s) := by
  have hmem : ∀ n ∈ op.replicated, n ∈ L.inodes := fun n hn => h.replicated_mem hn
  have hmain : ∀ a, L.Mains a → op.result cfg s a = op.mid cfg s a := fun a ha =>
    mirror_of_not_spares hmem ha.not_spares
  have hintact := intact_placedChanges (m := restart s) h.known hg.toIntact
  rw [← h.mid_eq hg.described] at hintact
  refine ⟨hintact.congr hmain, fun hc n hn k hk => ?_⟩
  rw [hmain _ (Or.inl ⟨n, hn, mem_span_of_lt hk⟩)]
  by_cases hr : n ∈ op.replicated
  · exact mirror_of_mem hc hmem hr hk
  · -- an inode that no change is about
    have hpi : op.mid cfg s (n.piAddr + 8 * k) = s (n.piAddr + 8 * k) := by
      refine h.mid_of_not_region hg.described (fun c hcm hreg => ?_) fun hcopy =>
        (hcopy.not_span hn).1 (mem_span_of_lt hk)
      refine Change.not_span_of_region (h.known c hcm) hn (fun hi => hr ?_) hreg
        (mem_span_of_lt hk)
      exact mem_replicated.mpr ⟨c, hcm, hi⟩
    have halter : op.mid cfg s (n.alterPiAddr + 8 * k) = s (n.alterPiAddr + 8 * k) := by
      refine h.mid_of_not_region hg.described (fun c hcm hreg => ?_) fun hcopy =>
        (hcopy.not_span hn).2 (mem_span_of_lt hk)
      exact ((h.known c hcm).mains hreg).not_spares ⟨hc, n, hn, mem_span_of_lt hk⟩
    rw [NameOp.result, mirror_of_not_mem hmem hn hr (mem_span_of_lt hk), halter, hpi]
    exact hg.mirrored hc n hn k hk

end Invariant

/-- What the rest of the file system sees of an inode. -/
structure InodeView where
  valid : ℕ
  logTail : ℕ
  deleteEpochId : ℕ
deriving DecidableEq, Repr

/-- Inodes by their place, and the parent that an entry names. -/
structure NameView where
  inode : ℕ → InodeView
  father : ℕ → ℕ

def NameView.change (v : NameView) (pi : ℕ) (f : InodeView → InodeView) : NameView :=
  { v with inode := Function.update v.inode pi (f (v.inode pi)) }

def Change.apply : Change → NameView → NameView
  | tail n u, v => v.change n.piAddr fun x => { x with logTail := u.tail }
  | validate n, v => v.change n.piAddr fun x => { x with valid := 1 }
  | invalidate n u e, v => v.change n.piAddr fun _ => ⟨0, u.tail, e⟩
  | father d ino, v => { v with father := Function.update v.father d ino }

def NameOp.apply (op : NameOp) (v : NameView) : NameView :=
  op.changes.foldl (fun v c => c.apply v) v

structure NameView.Agree (L : Layout) (v v' : NameView) : Prop where
  inode : ∀ n ∈ L.inodes, v.inode n.piAddr = v'.inode n.piAddr
  father : ∀ d ∈ L.fathers, v.father d = v'.father d

section Views

variable {cfg : Config} {L : Layout} {c : Change} {v v' v'' : NameView}

theorem NameView.Agree.refl (L : Layout) (v : NameView) : v.Agree L v :=
  ⟨fun _ _ => rfl, fun _ _ => rfl⟩

theorem NameView.Agree.trans (h : v.Agree L v') (h' : v'.Agree L v'') : v.Agree L v'' :=
  ⟨fun n hn => (h.inode n hn).trans (h'.inode n hn),
    fun d hd => (h.father d hd).trans (h'.father d hd)⟩

end Views

/-- An operation on the processor `cpu` that is done, or that a failure stops after `k` steps and
leaves `image`. -/
inductive Event
  | finish (cpu : ℕ) (op : NameOp)
  | fail (cpu : ℕ) (op : NameOp) (k : ℕ) (image : ℕ → ℕ)

section Runs

variable {cfg : Config} {L : Layout}

section

variable {W : ℕ → Prop} (hW : ∀ a, L.Words cfg a → W a)
include hW

end

theorem Layout.Good.congr {s s' : ℕ → ℕ} (h : L.Good cfg s) (hs : ∀ a, L.Words cfg a → s' a = s a) :
    L.Good cfg s' := by
  refine ⟨h.toIntact.congr fun a ha => hs a (Or.inl ha), fun hc n hn k hk => ?_⟩
  rw [hs _ (Or.inr ⟨hc, n, hn, mem_span_of_lt hk⟩),
    hs _ (Or.inl (Or.inl ⟨n, hn, mem_span_of_lt hk⟩))]
  exact h.mirrored hc n hn k hk

/-- A state between two operations: all journals are empty, inodes and entries stay over a failure,
and replicas will once they are waited for. -/
structure Settled (cfg : Config) (L : Layout) (m : Memory) : Prop where
  empty : ∀ c, ∃ i, (m (L.journal c).pair).Sure ((L.journal c).slot i) ∧
    (m ((L.journal c).pair + 8)).Sure ((L.journal c).slot i)
  mains : ∀ a, L.Mains a → (m a).Sure (nowOf m a)
  due : ∀ a, L.Words cfg a → (m a).Due (nowOf m a)
  good : L.Good cfg (nowOf m)

theorem Settled.sure_pointer {m : Memory} (h : Settled cfg L m) {c : Fin L.cpus} {a : ℕ}
    (ha : L.Pointer c a) : (m a).Sure (nowOf m a) := by
  obtain ⟨i, hhead, htail⟩ := h.empty c
  obtain rfl | rfl := ha
  · rwa [show nowOf m (L.journal c).pair = _ from hhead.now_eq]
  · rwa [show nowOf m ((L.journal c).pair + 8) = _ from htail.now_eq]

theorem Settled.idle {m : Memory} (h : Settled cfg L m) (c : Fin L.cpus) :
    ∃ i, Idle (L.journal c) (L.Others cfg c) (L.Spares cfg) (nowOf m) i m := by
  obtain ⟨i, hhead, htail⟩ := h.empty c
  refine ⟨i, hhead, htail, fun a ha hs => ?_, fun a ha => ?_⟩
  · obtain hw | ⟨c', -, hp⟩ := ha
    · exact h.mains a (hw.resolve_right hs)
    · exact h.sure_pointer hp
  · obtain hw | ⟨c', -, hp⟩ := ha
    · exact h.due a hw
    · exact (h.sure_pointer hp).due

end Runs

end Squint.Nova
