import Squint.Nova.NameOps

/-! The entry of a directory that names its parent, as a rename changes it. With metadata checksums
the code reads in the entry and in the tail of its page how long the entry is and where its copy is;
what it does can be said beforehand as long as these words do not change. -/
namespace Squint.Nova
open Squint.Lib

/-- An entry of `len` bytes in front of the tail of its page. -/
structure ParentPlaced (d len : ℕ) : Prop where
  aligned : d % 8 = 0
  len_aligned : len % 8 = 0
  header_le : novaDentryHeaderLen ≤ len
  fits_page : d % pageSize + len ≤ logBlockTail

instance (d len : ℕ) : Decidable (ParentPlaced d len) :=
  decidable_of_iff (d % 8 = 0 ∧ len % 8 = 0 ∧ novaDentryHeaderLen ≤ len ∧
    d % pageSize + len ≤ logBlockTail) ⟨fun ⟨h₁, h₂, h₃, h₄⟩ => ⟨h₁, h₂, h₃, h₄⟩,
    fun ⟨h₁, h₂, h₃, h₄⟩ => ⟨h₁, h₂, h₃, h₄⟩⟩

/-- What the code finds in the entry and in the tail of its page. -/
structure ParentFound (s : ℕ → ℕ) (d len alterPage : ℕ) : Prop where
  type : EntryType.ofByte (getBytes (s d) 0 1) = some .dirLog
  deLen : getBytes (s d) 4 2 = len
  alter : s (pageTail d + alterPageOff) = alterPage

def copyPlacedParent (cfg : Config) (d len alterPage : ℕ) : Code Unit := do
  if alterPage + d % pageSize = 0 then return ()
  let ws ← loadWords d (len / 8)
  memcpyToPmemNocache cfg (alterPage + d % pageSize) ws

def sealPlacedParent (cfg : Config) (d len alterPage : ℕ) : Code Unit := do
  if cfg.metadataCsum then
    let ws ← loadWords d (len / 8)
    storeBytes (d + dentryCsumOff) 4 (novaCalcEntryCsum cfg .dirLog len (bytesOf ws))
    novaFlushBuffer cfg d len true
    copyPlacedParent cfg d len alterPage
  else novaFlushBuffer cfg d cachelineSize true

/-- What a rename does to the entry, where its length and the page of its copy are known. -/
def changePlacedParent (cfg : Config) (d len alterPage ino : ℕ) : Code Unit := do
  store (d + dentryInoOff) ino
  sealPlacedParent cfg d len alterPage

def dentryWords (s : ℕ → ℕ) (d len : ℕ) : List ℕ :=
  (List.range (len / 8)).map fun k => s (d + 8 * k)

/-- The checksum of the entry is right. -/
def DentrySealed (cfg : Config) (s : ℕ → ℕ) (d len : ℕ) : Prop :=
  cfg.metadataCsum = true →
    getBytes (s (d + 8)) 4 4 = novaCalcEntryCsum cfg .dirLog len (bytesOf (dentryWords s d len))

section Checksum

variable {cfg : Config} {len : ℕ}

theorem novaCalcEntryCsum_lt (cfg : Config) (type : EntryType) (len : ℕ) (data : List (BitVec 8)) :
    novaCalcEntryCsum cfg type len data < 2 ^ 32 := BitVec.isLt _

/-- The bytes of the checksum itself do not count. -/
theorem novaCalcEntryCsum_congr {w w₁ w₁' : ℕ} (ws : List ℕ) (h : w₁ % 2 ^ 32 = w₁' % 2 ^ 32) :
    novaCalcEntryCsum cfg .dirLog len (bytesOf (w :: w₁ :: ws)) =
      novaCalcEntryCsum cfg .dirLog len (bytesOf (w :: w₁' :: ws)) := by
  have hbytes : ∀ x, bytesOf (w :: x :: ws) = (leBytes 8 w ++ leBytes 8 x) ++ bytesOf ws :=
    fun x => by
    simp [bytesOf]
  have hlen : ∀ x, (leBytes 8 w ++ leBytes 8 x).length = 16 := fun x => by simp [length_leBytes]
  have hhead : ∀ x, (bytesOf (w :: x :: ws)).take 12 = leBytes 8 w ++ leBytes 4 x := fun x => by
    rw [hbytes, List.take_append_of_le_length (by rw [hlen]; decide), List.take_append,
      length_leBytes, List.take_of_length_le (by rw [length_leBytes]; decide),
      take_leBytes (by decide)]
  have hrest : ∀ x, ((bytesOf (w :: x :: ws)).take len).drop 16 = (bytesOf ws).take (len - 16) :=
    fun x => by rw [List.drop_take, hbytes, List.drop_append_of_le_length (by rw [hlen]),
      List.drop_of_length_le (by rw [hlen]), List.nil_append]
  have hoff : entryCsumOff .dirLog = 12 := rfl
  simp only [novaCalcEntryCsum, hoff, hhead, hrest, leBytes_congr (n := 4) h]

theorem dentryWords_cons {s : ℕ → ℕ} {d : ℕ} (h : 16 ≤ len) :
    dentryWords s d len =
      s d :: s (d + 8) :: (List.range (len / 8 - 2)).map fun k => s (d + 16 + 8 * k) := by
  obtain ⟨n, hn⟩ : ∃ n, len / 8 = n + 2 := ⟨len / 8 - 2, by omega⟩
  rw [dentryWords, hn, List.range_succ_eq_map, List.range_succ_eq_map]
  simp only [List.map_cons, List.map_map, Nat.mul_zero, Nat.add_zero, Nat.mul_one,
    Nat.add_sub_cancel, List.cons.injEq, true_and, List.map_inj_left]
  intro k _
  simp only [Function.comp_apply, Nat.succ_eq_add_one]
  congr 1
  omega

theorem DentrySealed.congr {s s' : ℕ → ℕ} {d : ℕ} (h : DentrySealed cfg s d len) (hlen : 16 ≤ len)
    (hs : ∀ k < len / 8, s' (d + 8 * k) = s (d + 8 * k)) : DentrySealed cfg s' d len := by
  intro hc
  have hwords : dentryWords s' d len = dentryWords s d len :=
    List.map_congr_left fun k hk => hs k (List.mem_range.mp hk)
  have hfirst := hs 1 (by omega)
  rw [Nat.mul_one] at hfirst
  rw [hwords, hfirst]
  exact h hc

end Checksum

section Change

variable {cfg : Config} {d len alterPage : ℕ} {m : Memory}

theorem ParentFound.congr {s s' : ℕ → ℕ} (h : ParentFound s d len alterPage) (hd : s' d = s d)
    (ht : s' (pageTail d + alterPageOff) = s (pageTail d + alterPageOff)) :
    ParentFound s' d len alterPage :=
  ⟨by rw [hd]; exact h.type, by rw [hd]; exact h.deLen, by rw [ht]; exact h.alter⟩

theorem ParentPlaced.pageTail_le (h : ParentPlaced d len) : d + len ≤ pageTail d := by
  have := h.fits_page
  unfold pageTail logBlockTail pageSize at *
  omega

theorem ParentPlaced.wordOf_csum (h : ParentPlaced d len) : wordOf (d + dentryCsumOff) = d + 8 :=
  wordOf_add h.aligned dentryCsumOff

theorem ops_novaUpdateEntryCsum (hp : ParentPlaced d len) (hc : cfg.metadataCsum = true)
    (h : ParentFound (nowOf m) d len alterPage) :
    (novaUpdateEntryCsum cfg d).ops m = (do
      let ws ← loadWords d (len / 8)
      storeBytes (d + dentryCsumOff) 4 (novaCalcEntryCsum cfg .dirLog len (bytesOf ws))
      novaFlushBuffer cfg d len true : Code Unit).ops m := by
  have hlen : 0 < len ∧ (len + 7) / 8 = len / 8 := by
    have := hp.header_le
    have := hp.len_aligned
    unfold novaDentryHeaderLen at *
    omega
  have htype : EntryType.ofByte (getBytes (m d).now 0 1) = some .dirLog := h.type
  have hdeLen : getBytes (m d).now 4 2 = len := h.deLen
  simp only [novaUpdateEntryCsum, hc, Bool.not_true, Bool.false_eq_true, if_false, Prog.ops_bind,
    Prog.ops_load, Prog.val_load, Prog.after_load, List.nil_append, htype, hdeLen, entryLen,
    if_true, hlen.1, hlen.2, gt_iff_lt]
  rfl

theorem ops_novaUpdateAlterEntry (hc : cfg.metadataCsum = true)
    (h : ParentFound (nowOf m) d len alterPage) :
    (novaUpdateAlterEntry cfg d).ops m = (copyPlacedParent cfg d len alterPage).ops m := by
  have htype : EntryType.ofByte (getBytes (m d).now 0 1) = some .dirLog := h.type
  have hdeLen : getBytes (m d).now 4 2 = len := h.deLen
  have halter : (m (pageTail d + alterPageOff)).now = alterPage := h.alter
  unfold copyPlacedParent
  simp only [novaUpdateAlterEntry, alterLogEntry, hc, Bool.not_true, Bool.false_eq_true, if_false,
    Prog.ops_bind, Prog.ops_load, Prog.val_load, Prog.val_bind, Prog.val_pure, Prog.ops_pure,
    Prog.after_bind, Prog.after_load, Prog.after_pure, List.nil_append, halter]
  split_ifs
  · rfl
  · simp only [Prog.ops_bind, Prog.ops_load, Prog.val_load, Prog.after_load, List.nil_append, htype,
      hdeLen, entryLen, if_true]

/-- The words that decide about the rest are not changed on the way. -/
theorem Change.ops_father (hp : ParentPlaced d len) (ino : ℕ)
    (h : cfg.metadataCsum = true → ParentFound (nowOf m) d len alterPage) :
    ((father d ino).code cfg).ops m = (changePlacedParent cfg d len alterPage ino).ops m := by
  cases hc : cfg.metadataCsum
  · simp [code, changePlacedParent, sealPlacedParent, novaUpdateEntryCsum, novaUpdateAlterEntry, hc]
  · have htail := hp.pageTail_le
    have hlen := hp.header_le
    unfold novaDentryHeaderLen at hlen
    have hino : ParentFound (nowOf ((store (d + dentryInoOff) ino : Code Unit).after m)) d len
        alterPage := by
      unfold dentryInoOff
      refine (h hc).congr ?_ ?_ <;> rw [nowOf_store, if_neg (by omega)]
    have hcsum : ∀ {m : Memory} v, ParentFound (nowOf m) d len alterPage →
        ParentFound (nowOf ((novaFlushBuffer cfg d len true).after
          ((storeBytes (d + dentryCsumOff) 4 v).after m))) d len alterPage := by
      intro m v hm
      rw [nowOf_novaFlushBuffer]
      refine hm.congr ?_ ?_ <;> rw [nowOf_storeBytes, hp.wordOf_csum, if_neg (by omega)]
    have hfirst := ops_novaUpdateEntryCsum hp hc hino
    have hmid := Prog.after_congr hfirst
    simp only [Prog.after_bind, after_loadWords] at hmid
    simp only [code, changePlacedParent, sealPlacedParent, hc, if_true, Prog.ops_bind, hfirst, hmid,
      after_loadWords, (loadWords_eq _ _ _).2, List.nil_append]
    rw [ops_novaUpdateAlterEntry hc (hcsum _ hino)]
    simp only [List.append_assoc]

end Change

section Footprints

variable {cfg : Config} {d len alterPage : ℕ} {W : ℕ → Prop}

/-- The page of the copy. -/
def InCopy (alterPage a : ℕ) : Prop := alterPage ≤ a ∧ a < alterPage + pageSize

theorem within_copyWords {R : ℕ → Prop} {src dst n : ℕ} (h : ∀ k < n, R (dst + 8 * k)) :
    Prog.Within R (loadWords src n >>= memcpyToPmemNocache cfg dst) := by
  intro m o ho a v hv
  rw [Prog.ops_bind, (loadWords_eq src n m).2, List.nil_append] at ho
  obtain ⟨k, hk, rfl⟩ | ⟨-, rfl⟩ := mem_ops_memcpyToPmemNocache ho
  · rw [(loadWords_eq src n m).1, List.length_map, List.length_range] at hk
    simp only [MemOp.storedTo] at hv
    split_ifs at hv with he
    exact he ▸ h k hk
  · simp [MemOp.storedTo] at hv

theorem dependsOn_memcpyToPmemNocache (W : ℕ → Prop) (cfg : Config) (dst : ℕ) (ws : List ℕ) :
    Prog.DependsOn W (memcpyToPmemNocache cfg dst ws) := by
  refine .bind (.emitAll W _) fun _ => ?_
  split_ifs
  · exact .emitAll W _
  · exact .pure W _

theorem within_copyPlacedParent (hp : ParentPlaced d len) :
    Prog.Within (InCopy alterPage) (copyPlacedParent cfg d len alterPage) := by
  have hpage := hp.fits_page
  unfold copyPlacedParent
  split_ifs
  · exact .pure _ _
  · refine within_copyWords fun k hk => ?_
    unfold InCopy
    unfold logBlockTail pageSize at *
    omega

theorem within_sealPlacedParent (hp : ParentPlaced d len) :
    Prog.Within (fun a => a = d + 8 ∨ InCopy alterPage a)
      (sealPlacedParent cfg d len alterPage) := by
  unfold sealPlacedParent
  split_ifs
  · refine .bind (within_loadWords _ _ _) fun _ => .bind (within_storeBytes ?_) fun _ =>
      .bind (within_novaFlushBuffer _ _ _ _ _) fun _ => ?_
    · exact Or.inl hp.wordOf_csum
    · exact (within_copyPlacedParent hp).mono fun a ha => Or.inr ha
  · exact within_novaFlushBuffer _ _ _ _ _

theorem within_changePlacedParent (hp : ParentPlaced d len) (ino : ℕ) :
    Prog.Within (fun a => a ∈ [d + 16, d + 8] ∨ InCopy alterPage a)
      (changePlacedParent cfg d len alterPage ino) := by
  refine .bind (.store ?_) fun _ => (within_sealPlacedParent hp).mono ?_
  · simp [dentryInoOff]
  · rintro a (rfl | ha)
    · simp
    · exact Or.inr ha

theorem dependsOn_copyPlacedParent (h : ∀ k < len / 8, W (d + 8 * k)) :
    Prog.DependsOn W (copyPlacedParent cfg d len alterPage) := by
  unfold copyPlacedParent
  split_ifs
  · exact .pure W _
  · exact .bind (dependsOn_loadWords h) fun _ => dependsOn_memcpyToPmemNocache W _ _ _

theorem dependsOn_changePlacedParent (hp : ParentPlaced d len) (ino : ℕ)
    (h : ∀ k < len / 8, W (d + 8 * k)) :
    Prog.DependsOn W (changePlacedParent cfg d len alterPage ino) := by
  have hcsum : W (wordOf (d + dentryCsumOff)) := by
    have hlen := hp.header_le
    unfold novaDentryHeaderLen at hlen
    rw [hp.wordOf_csum]
    exact h 1 (by omega)
  refine .bind (.emitAll W _) fun _ => ?_
  unfold sealPlacedParent
  split_ifs
  · exact .bind (dependsOn_loadWords h) fun _ => .bind (dependsOn_storeBytes hcsum) fun _ =>
      .bind (dependsOn_novaFlushBuffer W _ _ _ _) fun _ => dependsOn_copyPlacedParent h
  · exact dependsOn_novaFlushBuffer W _ _ _ _

theorem writesBack_changePlacedParent (hp : ParentPlaced d len) (ino : ℕ)
    (halter : ∀ a ∈ [d + 16, d + 8], ¬InCopy alterPage a) :
    Prog.WritesBack (· ∈ [d + 16, d + 8]) (changePlacedParent cfg d len alterPage ino) := by
  have hflush : ∀ n, novaDentryHeaderLen ≤ n → n ≤ logBlockTail →
      Prog.WritesBack (· ∈ [d + 16, d + 8]) (novaFlushBuffer cfg d n true) := by
    intro n hn hn' m a ha
    simp only [List.mem_cons, List.not_mem_nil, or_false] at ha
    unfold novaDentryHeaderLen at hn
    unfold logBlockTail at hn'
    exact ready_novaFlushBuffer (by unfold cachelineSize; omega) (by omega) (by omega)
  refine .bind_last fun _ => ?_
  unfold sealPlacedParent
  split_ifs
  · refine .bind_last fun _ => .bind_last fun _ => ?_
    have hlen : len ≤ logBlockTail := (Nat.le_add_left _ _).trans hp.fits_page
    exact (hflush len hp.header_le hlen).bind_first (fun _ => within_copyPlacedParent hp) halter
  · exact hflush _ (by decide) (by decide)

end Footprints

section Values

variable {cfg : Config} {d len alterPage : ℕ}

theorem nowOf_sealPlacedParent (hp : ParentPlaced d len) (hc : cfg.metadataCsum = true) (m : Memory)
    {x : ℕ} (hx : ¬InCopy alterPage x) :
    nowOf ((sealPlacedParent cfg d len alterPage).after m) x = if x = d + 8 then
      setBytes (nowOf m (d + 8)) 4 4
        (novaCalcEntryCsum cfg .dirLog len (bytesOf (dentryWords (nowOf m) d len)))
      else nowOf m x := by
  have hb : (d + dentryCsumOff) % 8 = 4 := by
    have := hp.aligned
    unfold dentryCsumOff
    omega
  have hval : (loadWords d (len / 8)).val m = dentryWords (nowOf m) d len := (loadWords_eq _ _ _).1
  simp only [sealPlacedParent, hc, if_true, Prog.after_bind, after_loadWords, hval]
  refine ((within_copyPlacedParent hp).now_after hx).trans ?_
  show nowOf _ x = _
  rw [nowOf_novaFlushBuffer, nowOf_storeBytes, hp.wordOf_csum, hb]

theorem dentrySealed_sealPlacedParent (hp : ParentPlaced d len)
    (halter : ∀ k < len / 8, ¬InCopy alterPage (d + 8 * k)) (m : Memory) :
    DentrySealed cfg (nowOf ((sealPlacedParent cfg d len alterPage).after m)) d len := by
  intro hc
  have hlen : 16 ≤ len := (by decide : 16 ≤ novaDentryHeaderLen).trans hp.header_le
  have hnow : ∀ k < len / 8,
      nowOf ((sealPlacedParent cfg d len alterPage).after m) (d + 8 * k) = _ :=
    fun k hk => nowOf_sealPlacedParent hp hc m (halter k hk)
  have hzero := hnow 0 (by omega)
  have hone := hnow 1 (by omega)
  have hrest : (List.range (len / 8 - 2)).map (fun k =>
        nowOf ((sealPlacedParent cfg d len alterPage).after m) (d + 16 + 8 * k)) =
      (List.range (len / 8 - 2)).map fun k => nowOf m (d + 16 + 8 * k) := by
    refine List.map_congr_left fun k hk => ?_
    have hk := List.mem_range.mp hk
    have := hnow (k + 2) (by omega)
    rwa [show d + 8 * (k + 2) = d + 16 + 8 * k by omega, if_neg (by omega)] at this
  rw [if_neg (by omega), Nat.mul_zero, Nat.add_zero] at hzero
  rw [if_pos rfl, Nat.mul_one] at hone
  rw [dentryWords_cons hlen, hzero, hone, hrest, getBytes_setBytes,
    novaCalcEntryCsum_congr _ (setBytes_mod _ 4 4 _), ← dentryWords_cons hlen,
    Nat.mod_eq_of_lt (novaCalcEntryCsum_lt _ _ _ _)]

end Values

end Squint.Nova
