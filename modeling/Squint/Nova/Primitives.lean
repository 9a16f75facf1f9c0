import Squint.Lib.CrashLogic
import Squint.Lib.Crc
import Mathlib.Tactic.Ring

/-! What the file system does to persistent memory and to checksums: `nova_def.h` and the first
part of `nova.h`. Addresses are byte offsets from the start of the file system, which is mapped at a
page boundary; a memory word is eight bytes. -/
namespace Squint.Nova
open Squint.Lib

/-- The module parameters and the processor features that the code asks for, and one thing that it
cannot ask for: whether the kernel's copy past the cache ends with a fence. -/
structure Config where
  supportClwb : Bool
  metadataCsum : Bool
  xmm42 : Bool
  copyFences : Bool
deriving DecidableEq, Repr

def cachelineSize : ℕ := 64

def pageSize : ℕ := 4096

def lineOf (a : ℕ) : ℕ := a / cachelineSize

abbrev Memory := ℕ → Cell ℕ

abbrev Op := MemOp ℕ ℕ

abbrev Code := Prog lineOf ℕ

export Squint.Lib.Prog (store load emit emitAll)

/-- `size` bytes of the word `w` from byte `off` on. -/
def getBytes (w off size : ℕ) : ℕ := w / 2 ^ (8 * off) % 2 ^ (8 * size)

/-- The word `w` with these bytes replaced by those of `v`. -/
def setBytes (w off size v : ℕ) : ℕ :=
  w % 2 ^ (8 * off) + v % 2 ^ (8 * size) * 2 ^ (8 * off) +
    w % 2 ^ 64 / 2 ^ (8 * (off + size)) * 2 ^ (8 * (off + size))

def wordOf (a : ℕ) : ℕ := a / 8 * 8

theorem setBytes_eq (w off size v : ℕ) :
    setBytes w off size v = w % 2 ^ (8 * off) + 2 ^ (8 * off) *
      (v % 2 ^ (8 * size) + 2 ^ (8 * size) * (w % 2 ^ 64 / 2 ^ (8 * (off + size)))) := by
  have hpow : 2 ^ (8 * (off + size)) = 2 ^ (8 * off) * 2 ^ (8 * size) := by
    rw [Nat.mul_add, Nat.pow_add]
  unfold setBytes
  rw [hpow]
  ring

theorem getBytes_setBytes (w off size v : ℕ) :
    getBytes (setBytes w off size v) off size = v % 2 ^ (8 * size) := by
  unfold getBytes
  rw [setBytes_eq, Nat.add_mul_div_left _ _ (Nat.two_pow_pos _),
    Nat.div_eq_of_lt (Nat.mod_lt _ (Nat.two_pow_pos _)), Nat.zero_add, Nat.add_mul_mod_self_left,
    Nat.mod_mod]

/-- The bytes before the ones that are replaced. -/
theorem setBytes_mod (w off size v : ℕ) :
    setBytes w off size v % 2 ^ (8 * off) = w % 2 ^ (8 * off) := by
  rw [setBytes_eq, Nat.add_mul_mod_self_left, Nat.mod_mod]

/-- A store of `size` bytes inside one word. -/
def storeBytes (a size v : ℕ) : Code Unit := do
  let w ← load (wordOf a)
  store (wordOf a) (setBytes w (a % 8) size v)

def persistentBarrier : Code Unit := emit .sfence

def flushOp (cfg : Config) (a : ℕ) : Op := if cfg.supportClwb then .clwb a else .clflush a

def novaFlushBuffer (cfg : Config) (buf len : ℕ) (fence : Bool) : Code Unit := do
  let len := (len + buf % cachelineSize) % 2 ^ 32
  emitAll ((List.range ((len + cachelineSize - 1) / cachelineSize)).map fun i =>
    flushOp cfg (buf + cachelineSize * i))
  if fence then persistentBarrier

def loadWords (a : ℕ) : ℕ → Code (List ℕ)
  | 0 => return []
  | n + 1 => do
    let w ← load a
    let ws ← loadWords (a + 8) n
    return w :: ws

def ntStores (a : ℕ) : List ℕ → List Op
  | [] => []
  | w :: ws => .ntStore a w :: ntStores (a + 8) ws

/-- `__copy_from_user_inatomic_nocache` is the kernel's. Of aligned words it stores all past the
cache; the fence at its end is left to the configuration. -/
def memcpyToPmemNocache (cfg : Config) (dst : ℕ) (ws : List ℕ) : Code Unit := do
  emitAll (ntStores dst ws)
  if cfg.copyFences then persistentBarrier

theorem storedTo_flushOp (cfg : Config) (x a : ℕ) : (flushOp cfg x).storedTo a = none := by
  unfold flushOp
  split <;> rfl

theorem flushes_flushOp {cfg : Config} {x a : ℕ} (h : lineOf x = lineOf a) :
    (flushOp cfg x).Flushes lineOf a := by
  unfold flushOp
  split <;> exact h

section Flush

variable {cfg : Config} {buf len : ℕ} {fence : Bool} {m : Memory} {a : ℕ}

theorem ops_novaFlushBuffer (cfg : Config) (buf len : ℕ) (fence : Bool) (m : Memory) :
    (novaFlushBuffer cfg buf len fence).ops m =
      ((List.range (((len + buf % cachelineSize) % 2 ^ 32 + cachelineSize - 1) / cachelineSize)).map
        fun i => flushOp cfg (buf + cachelineSize * i)) ++
        if fence then [MemOp.sfence] else [] := by
  cases fence <;> rfl

theorem within_persistentBarrier (R : ℕ → Prop) : Prog.Within R persistentBarrier :=
  Prog.Within.emitAll (by simp [MemOp.storedTo])

theorem within_novaFlushBuffer (R : ℕ → Prop) (cfg : Config) (buf len : ℕ) (fence : Bool) :
    Prog.Within R (novaFlushBuffer cfg buf len fence) := by
  refine Prog.Within.bind (Prog.Within.emitAll ?_) fun _ => ?_
  · simp only [List.mem_map, forall_exists_index, and_imp]
    rintro _ i - rfl a
    exact storedTo_flushOp cfg _ a
  · cases fence
    · exact Prog.Within.pure R ()
    · exact within_persistentBarrier R

theorem exists_flushes (hlen : len + cachelineSize ≤ 2 ^ 32) (h₁ : buf ≤ a) (h₂ : a < buf + len) :
    ∃ o ∈ (novaFlushBuffer cfg buf len fence).ops m, o.Flushes lineOf a := by
  have hmod : (len + buf % cachelineSize) % 2 ^ 32 = len + buf % cachelineSize := by
    apply Nat.mod_eq_of_lt
    unfold cachelineSize at *
    omega
  rw [ops_novaFlushBuffer, hmod]
  -- the flush that starts `lineOf a - lineOf buf` lines after the buffer
  refine ⟨flushOp cfg (buf + cachelineSize * (lineOf a - lineOf buf)), List.mem_append_left _ ?_,
    flushes_flushOp ?_⟩
  · refine List.mem_map.mpr ⟨lineOf a - lineOf buf, List.mem_range.mpr ?_, rfl⟩
    unfold lineOf cachelineSize
    omega
  · unfold lineOf cachelineSize
    omega

theorem ready_novaFlushBuffer (hlen : len + cachelineSize ≤ 2 ^ 32) (h₁ : buf ≤ a)
    (h₂ : a < buf + len) : ((novaFlushBuffer cfg buf len fence).after m a).Ready := by
  obtain ⟨o, ho, hf⟩ := exists_flushes hlen h₁ h₂
  exact ready_of_flushes ho hf ((within_novaFlushBuffer (fun _ => False) cfg buf len fence).unstored
    not_false)

theorem now_novaFlushBuffer : ((novaFlushBuffer cfg buf len fence).after m a).now = (m a).now :=
  (within_novaFlushBuffer (fun _ => False) cfg buf len fence).now_after not_false

theorem sure_persistentBarrier {v : ℕ} (h : (m a).Due v) : (persistentBarrier.after m a).Sure v :=
  sure_of_fence h ((within_persistentBarrier fun _ => False).unstored not_false)
    (List.mem_singleton.mpr rfl)

/-- With a fence the words of the buffer reach the medium. -/
theorem sure_novaFlushBuffer (hlen : len + cachelineSize ≤ 2 ^ 32) (h₁ : buf ≤ a)
    (h₂ : a < buf + len) : ((novaFlushBuffer cfg buf len true).after m a).Sure (m a).now := by
  have hr : ((novaFlushBuffer cfg buf len false).after m a).Ready :=
    ready_novaFlushBuffer hlen h₁ h₂
  have hs := sure_persistentBarrier hr.due
  rw [now_novaFlushBuffer] at hs
  simpa only [Prog.after, ops_novaFlushBuffer, persistentBarrier, Prog.ops_emit, exec_append,
    Bool.false_eq_true, if_false, if_true, List.append_nil] using hs

end Flush

section Copy

variable {cfg : Config} {m : Memory}

theorem loadWords_eq (a n : ℕ) (m : Memory) :
    (loadWords a n).val m = (List.range n).map (fun k => (m (a + 8 * k)).now) ∧
      (loadWords a n).ops m = [] := by
  induction n generalizing a with
  | zero => exact ⟨rfl, rfl⟩
  | succ n ih =>
    obtain ⟨hv, ho⟩ := ih (a + 8)
    rw [List.range_succ_eq_map]
    simp only [loadWords, Prog.val_bind, Prog.ops_bind, Prog.val_load, Prog.ops_load,
      Prog.after_load, hv, ho, Prog.val_pure, Prog.ops_pure]
    refine ⟨?_, rfl⟩
    simp only [List.map_cons, List.map_map]
    congr 1
    refine List.map_congr_left fun k _ => ?_
    simp only [Function.comp_apply]
    congr 2
    omega

theorem after_loadWords (a n : ℕ) (m : Memory) : (loadWords a n).after m = m := by
  rw [Prog.after, (loadWords_eq a n m).2, exec_nil]

theorem mem_ntStores {ws : List ℕ} {a : ℕ} {o : Op} (h : o ∈ ntStores a ws) :
    ∃ k, ∃ hk : k < ws.length, o = .ntStore (a + 8 * k) ws[k] := by
  induction ws generalizing a with
  | nil => simp [ntStores] at h
  | cons w ws ih =>
    obtain rfl | h := List.mem_cons.mp h
    · exact ⟨0, by simp, rfl⟩
    · obtain ⟨k, hk, rfl⟩ := ih h
      refine ⟨k + 1, by simpa using hk, ?_⟩
      rw [show a + 8 + 8 * k = a + 8 * (k + 1) by omega, List.getElem_cons_succ]

theorem unstored_ntStores {ws : List ℕ} {a x : ℕ} (h : ∀ k < ws.length, x ≠ a + 8 * k) :
    Unstored x (ntStores a ws) := by
  intro o ho
  obtain ⟨k, hk, rfl⟩ := mem_ntStores ho
  simp [MemOp.storedTo, (h k hk).symm]

theorem ntStores_spec (ws : List ℕ) (a : ℕ) (m : Memory) {k : ℕ} (h : k < ws.length) :
    (exec lineOf m (ntStores a ws) (a + 8 * k)).now = ws[k] ∧
      (exec lineOf m (ntStores a ws) (a + 8 * k)).Ready := by
  induction ws generalizing a m k with
  | nil => simp at h
  | cons w ws ih =>
    rw [ntStores, exec_cons]
    cases k with
    | zero =>
      have ha : Unstored (a + 8 * 0) (ntStores (a + 8) ws) := unstored_ntStores fun k _ => by omega
      constructor
      · rw [now_exec ha]
        simp [exec_singleton, MemOp.onCell]
      · apply ready_exec _ ha
        simpa [exec_singleton, MemOp.onCell] using Cell.ready_writeBack _
    | succ k =>
      rw [show a + 8 * (k + 1) = a + 8 + 8 * k by omega]
      simpa using ih (a + 8) _ (k := k) (by simpa using h)

theorem ops_memcpyToPmemNocache (cfg : Config) (dst : ℕ) (ws : List ℕ) (m : Memory) :
    (memcpyToPmemNocache cfg dst ws).ops m =
      ntStores dst ws ++ if cfg.copyFences then [MemOp.sfence] else [] := by
  cases h : cfg.copyFences <;> simp [memcpyToPmemNocache, persistentBarrier, h]

theorem mem_ops_memcpyToPmemNocache {dst : ℕ} {ws : List ℕ} {o : Op}
    (h : o ∈ (memcpyToPmemNocache cfg dst ws).ops m) :
    (∃ k, ∃ hk : k < ws.length, o = .ntStore (dst + 8 * k) ws[k]) ∨
      cfg.copyFences = true ∧ o = .sfence := by
  rw [ops_memcpyToPmemNocache] at h
  obtain h | h := List.mem_append.mp h
  · exact Or.inl (mem_ntStores h)
  · split_ifs at h with hf
    · exact Or.inr ⟨hf, List.mem_singleton.mp h⟩
    · cases h

theorem unstored_memcpyToPmemNocache {ws : List ℕ} {dst x : ℕ}
    (h : ∀ k < ws.length, x ≠ dst + 8 * k) :
    Unstored x ((memcpyToPmemNocache cfg dst ws).ops m) := by
  intro o ho
  obtain ⟨k, hk, rfl⟩ | ⟨-, rfl⟩ := mem_ops_memcpyToPmemNocache ho
  · simp [MemOp.storedTo, (h k hk).symm]
  · rfl

theorem memcpyToPmemNocache_spec (cfg : Config) (dst : ℕ) (ws : List ℕ) (m : Memory) {k : ℕ}
    (h : k < ws.length) :
    ((memcpyToPmemNocache cfg dst ws).after m (dst + 8 * k)).now = ws[k] ∧
      ((memcpyToPmemNocache cfg dst ws).after m (dst + 8 * k)).Ready ∧
      (cfg.copyFences = true →
        ((memcpyToPmemNocache cfg dst ws).after m (dst + 8 * k)).Sure ws[k]) := by
  obtain ⟨hnow, hready⟩ := ntStores_spec ws dst m h
  rw [Prog.after, ops_memcpyToPmemNocache, exec_append]
  cases hf : cfg.copyFences with
  | false => simpa using ⟨hnow, hready⟩
  | true =>
    rw [if_pos rfl, exec_singleton, MemOp.onCell, hready.fence_eq, hnow]
    exact ⟨rfl, Cell.ready_rest _, fun _ => Cell.sure_rest _⟩

end Copy

section Checksums

def crc32cPoly : BitVec 32 := 0x82F63B78#32

def crc32b (acc : BitVec 32) (b : BitVec 8) : BitVec 32 := crcWord crc32cPoly acc b

def crc32q (acc : BitVec 32) (q : BitVec 64) : BitVec 32 := crcWord crc32cPoly acc q

def crc32c (crc : BitVec 32) (data : List (BitVec 8)) : BitVec 32 := data.foldl crc32b crc

/-- Eight bytes as the processor loads them. -/
def loadQword (b₀ b₁ b₂ b₃ b₄ b₅ b₆ b₇ : BitVec 8) : BitVec 64 :=
  b₇ ++ (b₆ ++ (b₅ ++ (b₄ ++ (b₃ ++ (b₂ ++ (b₁ ++ b₀))))))

/-- The loop with the `crc32` instruction. The last eight bytes never go as a quad word. -/
def novaCrc32cHw (acc : BitVec 32) : List (BitVec 8) → BitVec 32
  | b₀ :: b₁ :: b₂ :: b₃ :: b₄ :: b₅ :: b₆ :: b₇ :: b :: rest =>
    novaCrc32cHw (crc32q acc (loadQword b₀ b₁ b₂ b₃ b₄ b₅ b₆ b₇)) (b :: rest)
  | rest => rest.foldl crc32b acc

def novaCrc32c (cfg : Config) (crc : BitVec 32) (data : List (BitVec 8)) : BitVec 32 :=
  if cfg.xmm42 then novaCrc32cHw crc data else crc32c crc data

theorem crc32q_loadQword (acc : BitVec 32) (b₀ b₁ b₂ b₃ b₄ b₅ b₆ b₇ : BitVec 8) :
    crc32q acc (loadQword b₀ b₁ b₂ b₃ b₄ b₅ b₆ b₇) =
      [b₀, b₁, b₂, b₃, b₄, b₅, b₆, b₇].foldl crc32b acc := by
  simp only [crc32q, loadQword, crcWord_append, crc32b, List.foldl_cons, List.foldl_nil]

theorem novaCrc32cHw_eq (acc : BitVec 32) (data : List (BitVec 8)) :
    novaCrc32cHw acc data = crc32c acc data := by
  fun_induction novaCrc32cHw acc data with
  | case1 acc b₀ b₁ b₂ b₃ b₄ b₅ b₆ b₇ b rest ih =>
    rw [ih, crc32q_loadQword]
    rfl
  | case2 => rfl

/-- With the instruction or without it, the checksum is the same. -/
theorem novaCrc32c_eq (cfg : Config) (crc : BitVec 32) (data : List (BitVec 8)) :
    novaCrc32c cfg crc data = crc32c crc data := by
  unfold novaCrc32c
  split
  · exact novaCrc32cHw_eq crc data
  · rfl

def leBytes (n w : ℕ) : List (BitVec 8) :=
  (List.range n).map fun i => BitVec.ofNat 8 (w / 2 ^ (8 * i))

theorem leBytes_congr {n w w' : ℕ} (h : w % 2 ^ (8 * n) = w' % 2 ^ (8 * n)) :
    leBytes n w = leBytes n w' := by
  refine List.map_congr_left fun i hi => ?_
  have hi : i < n := List.mem_range.mp hi
  have hpow : 2 ^ (8 * n) = 2 ^ (8 * i) * (2 ^ 8 * 2 ^ (8 * (n - i - 1))) := by
    rw [← Nat.pow_add, ← Nat.pow_add]
    congr 1
    omega
  have hbyte : ∀ x : ℕ, x / 2 ^ (8 * i) % 2 ^ 8 = x % 2 ^ (8 * n) / 2 ^ (8 * i) % 2 ^ 8 := by
    intro x
    rw [hpow, Nat.mod_mul_right_div_self, Nat.mod_mul_right_mod]
  apply BitVec.eq_of_toNat_eq
  rw [BitVec.toNat_ofNat, BitVec.toNat_ofNat, hbyte w, hbyte w', h]

end Checksums

end Squint.Nova
