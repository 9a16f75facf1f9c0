import Mathlib.Data.List.Basic
import Mathlib.Tactic.Common

/-! Cyclic redundancy checks of a reflected polynomial, one bit at a time and in larger steps. -/
namespace Squint.Lib

variable {w : ℕ}

def crcBit (poly acc : BitVec w) (b : Bool) : BitVec w :=
  if acc.getLsbD 0 != b then acc >>> 1 ^^^ poly else acc >>> 1

def crcBits (poly acc : BitVec w) (bs : List Bool) : BitVec w := bs.foldl (crcBit poly) acc

/-- The bits of a word in the order in which they go into the register. -/
def bitsOf {n : ℕ} (x : BitVec n) : List Bool := (List.range n).map x.getLsbD

def crcWord {n : ℕ} (poly acc : BitVec w) (x : BitVec n) : BitVec w := crcBits poly acc (bitsOf x)

theorem crcBits_append (poly acc : BitVec w) (bs cs : List Bool) :
    crcBits poly acc (bs ++ cs) = crcBits poly (crcBits poly acc bs) cs := by
  simp [crcBits]

/-- The low half of a word goes first. -/
theorem bitsOf_append {m n : ℕ} (hi : BitVec m) (lo : BitVec n) :
    bitsOf (hi ++ lo) = bitsOf lo ++ bitsOf hi := by
  have hrange : List.range (m + n) = List.range n ++ (List.range m).map (n + ·) := by
    rw [Nat.add_comm, List.range_add]
  unfold bitsOf
  rw [hrange, List.map_append, List.map_map]
  congr 1
  · refine List.map_congr_left fun i hi => ?_
    rw [BitVec.getLsbD_append, if_pos (List.mem_range.mp hi)]
  · refine List.map_congr_left fun i hi => ?_
    simp [BitVec.getLsbD_append]

theorem crcWord_append {m n : ℕ} (poly acc : BitVec w) (hi : BitVec m) (lo : BitVec n) :
    crcWord poly acc (hi ++ lo) = crcWord poly (crcWord poly acc lo) hi := by
  simp only [crcWord, bitsOf_append, crcBits_append]

end Squint.Lib
