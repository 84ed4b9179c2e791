import Mathlib.Tactic.FieldSimp
import Uvrgw.Mb.Read

/-!
# Numbers that are written and read back

`write_execute` and `dispatch_value` are inverse up to rounding and the range of the type.
-/

namespace Uvrgw.Mb

open Uvrgw.Lib Uvrgw.Lib.Traced

/-- The registers that a request sends. -/
def Request.words : Request → List (BitVec 16)
  | .writeBit _ _ => []
  | .writeRegister _ value => [value]
  | .writeRegisters _ src => src

/-- The range of an integer type. -/
def ValType.range : ValType → Option (Int × Int)
  | .s16 => some (-2 ^ 15, 2 ^ 15 - 1)
  | .u16 => some (0, 2 ^ 16 - 1)
  | .s32 => some (-2 ^ 31, 2 ^ 31 - 1)
  | .u32 => some (0, 2 ^ 32 - 1)
  | _ => none

/-- `buf` has the registers `words` from `reg` on. -/
def Holds (buf : Int → BitVec 16) (reg : Int) (words : List (BitVec 16)) : Prop :=
  ∀ (i : Nat) w, words[i]? = some w → buf (reg + i) = w

/-- The registers of an integer. -/
def SlaveVal.words (v : SlaveVal) (n : Int) : List (BitVec 16) :=
  if valueRegCount v.type = 1 then [BitVec.ofInt 16 n] else setU32 v (BitVec.ofInt 32 n)

theorem toNat_ofInt_of_mem {w : Nat} {n : Int} (hlo : 0 ≤ n) (hhi : n < 2 ^ w) :
    ((BitVec.ofInt w n).toNat : Int) = n := by
  rw [BitVec.toNat_ofInt]
  push_cast
  rw [Int.emod_eq_of_lt hlo hhi]
  omega

section Values

variable {v : SlaveVal} {lo hi : Int}

theorem range_le (h : v.type.range = some (lo, hi)) : lo ≤ hi := by
  unfold ValType.range at h
  split at h <;> simp at h <;> omega

theorem request_words (h : v.type.range = some (lo, hi)) (blockAddr : Int) (image : BitVec 16) (f : ℚ) :
    (v.request blockAddr image f).1.words = v.words (v.raw f lo hi) := by
  unfold SlaveVal.request SlaveVal.words
  cases htype : v.type with
  | s16 | u16 | s32 | u32 =>
    simp only [htype, ValType.range, Option.some.injEq, Prod.mk.injEq] at h
    obtain ⟨rfl, rfl⟩ := h
    rfl
  | bit | bitmask | f32 => simp [htype, ValType.range] at h

/-- The sent integer decides the request. -/
theorem request_congr (h : v.type.range = some (lo, hi)) {f g : ℚ} (hraw : v.raw g lo hi = v.raw f lo hi)
    (blockAddr : Int) (image image' : BitVec 16) :
    (v.request blockAddr image' g).1 = (v.request blockAddr image f).1 := by
  unfold SlaveVal.request
  cases htype : v.type with
  | s16 | u16 | s32 | u32 =>
    simp only [htype, ValType.range, Option.some.injEq, Prod.mk.injEq] at h
    obtain ⟨rfl, rfl⟩ := h
    dsimp only
    rw [hraw]
  | bit | bitmask | f32 => simp [htype, ValType.range] at h

theorem getU32_setU32 {buf : Int → BitVec 16} {x : BitVec 32} (h : Holds buf v.reg (setU32 v x)) :
    (getU32 buf v).val = x := by
  have hsplit : (x >>> 16).setWidth 16 ++ x.setWidth 16 = x := by
    apply BitVec.eq_of_getLsbD_eq
    intro i hi
    rw [BitVec.getLsbD_append]
    split
    · rename_i hlt
      simp [hlt]
    · simp only [BitVec.getLsbD_setWidth, BitVec.getLsbD_ushiftRight]
      rw [show 16 + (i - 16) = i by omega]
      simp
      omega
  have hval : (getU32 buf v).val =
      if v.wordSwap then buf (v.reg + 1) ++ buf v.reg else buf v.reg ++ buf (v.reg + 1) := rfl
  have h0 := h 0
  have h1 := h 1
  unfold setU32 at h0 h1
  rw [hval]
  cases hswap : v.wordSwap with
  | false => simp_all
  | true => simp_all

theorem dispatchValue_words (h : v.type.range = some (lo, hi)) {n : Int} (hlo : lo ≤ n) (hhi : n ≤ hi)
    {buf : Int → BitVec 16} (hbuf : Holds buf v.reg (v.words n)) (sf : ℚ) :
    (dispatchValue buf v sf).val = some (v.scaled n sf) := by
  unfold SlaveVal.words at hbuf
  unfold dispatchValue
  cases htype : v.type with
  | s16 =>
    simp only [htype, ValType.range, Option.some.injEq, Prod.mk.injEq] at h
    have hreg : buf v.reg = BitVec.ofInt 16 n := by
      simpa [htype, valueRegCount] using hbuf 0
    have hn : (BitVec.ofInt 16 n).toInt = n := BitVec.toInt_ofInt_eq_self (by decide) (by omega) (by omega)
    simp only [val_bind, val_pure, readReg, val_use, hreg, hn]
  | u16 =>
    simp only [htype, ValType.range, Option.some.injEq, Prod.mk.injEq] at h
    have hreg : buf v.reg = BitVec.ofInt 16 n := by
      simpa [htype, valueRegCount] using hbuf 0
    have hn : ((BitVec.ofInt 16 n).toNat : Int) = n := toNat_ofInt_of_mem (by omega) (by omega)
    simp only [val_bind, val_pure, readReg, val_use, hreg]
    rw [← Int.cast_natCast, hn]
  | s32 =>
    simp only [htype, ValType.range, Option.some.injEq, Prod.mk.injEq] at h
    have hreg : (getU32 buf v).val = BitVec.ofInt 32 n := getU32_setU32 (by simpa [htype, valueRegCount] using hbuf)
    have hn : (BitVec.ofInt 32 n).toInt = n := BitVec.toInt_ofInt_eq_self (by decide) (by omega) (by omega)
    simp only [val_bind, val_pure, hreg, hn]
  | u32 =>
    simp only [htype, ValType.range, Option.some.injEq, Prod.mk.injEq] at h
    have hreg : (getU32 buf v).val = BitVec.ofInt 32 n := getU32_setU32 (by simpa [htype, valueRegCount] using hbuf)
    have hn : ((BitVec.ofInt 32 n).toNat : Int) = n := toNat_ofInt_of_mem (by omega) (by omega)
    simp only [val_bind, val_pure, hreg]
    rw [← Int.cast_natCast, hn]
  | bit | bitmask | f32 => simp [htype, ValType.range] at h

/-- A number that is decoded is encoded as the same integer. -/
theorem raw_scaled (hscale : v.scale ≠ 0) {n : Int} (hlo : lo ≤ n) (hhi : n ≤ hi) :
    v.raw (v.scaled n 1) lo hi = n := by
  have hinv : (v.scaled n 1 - v.offset) / v.scale = n := by
    unfold SlaveVal.scaled
    field_simp
    ring
  unfold SlaveVal.raw
  rw [hinv, cRound_intCast, utlValLimit_of_mem hlo hhi]

theorem scaled_raw_near (hscale : v.scale ≠ 0) {f : ℚ} (hlo : lo ≤ (f - v.offset) / v.scale)
    (hhi : (f - v.offset) / v.scale ≤ hi) : |v.scaled (v.raw f lo hi) 1 - f| ≤ |v.scale| / 2 := by
  obtain ⟨hlo', hhi'⟩ := cRound_mem hlo hhi
  have hraw : v.raw f lo hi = cRound ((f - v.offset) / v.scale) := utlValLimit_of_mem hlo' hhi'
  have hsub : v.scaled (v.raw f lo hi) 1 - f =
      (cRound ((f - v.offset) / v.scale) - (f - v.offset) / v.scale) * v.scale := by
    rw [hraw]
    unfold SlaveVal.scaled
    field_simp
    ring
  have hround := abs_cRound_sub_le ((f - v.offset) / v.scale)
  rw [hsub, abs_mul]
  calc |(cRound ((f - v.offset) / v.scale) : ℚ) - (f - v.offset) / v.scale| * |v.scale|
      ≤ 1 / 2 * |v.scale| := mul_le_mul_of_nonneg_right hround (abs_nonneg _)
    _ = |v.scale| / 2 := by ring

end Values

/-- **Written numbers survive.** Reading back what is sent for `f` gives the nearest number that the type has,
and writing this one again changes nothing. -/
theorem read_written (v : SlaveVal) (lo hi : Int) (hrange : v.type.range = some (lo, hi)) (hscale : v.scale ≠ 0)
    (f : ℚ) (blockAddr : Int) (image : BitVec 16) (buf : Int → BitVec 16)
    (hbuf : Holds buf v.reg (v.request blockAddr image f).1.words) :
    ∃ g : ℚ, g = (max lo (min (cRound ((f - v.offset) / v.scale)) hi) : Int) * v.scale + v.offset ∧
      (dispatchValue buf v 1).val = some g ∧
      (lo ≤ (f - v.offset) / v.scale → (f - v.offset) / v.scale ≤ hi → |g - f| ≤ |v.scale| / 2) ∧
      ∀ image', (v.request blockAddr image' g).1 = (v.request blockAddr image f).1 := by
  have hle := range_le hrange
  obtain ⟨hlo, hhi⟩ := utlValLimit_mem (cRound ((f - v.offset) / v.scale)) hle
  refine ⟨v.scaled (v.raw f lo hi) 1, ?_, ?_, scaled_raw_near hscale, fun image' => ?_⟩
  · unfold SlaveVal.scaled SlaveVal.raw
    rw [utlValLimit_eq _ hle, mul_one]
  · rw [request_words hrange] at hbuf
    exact dispatchValue_words hrange hlo hhi hbuf 1
  · exact request_congr hrange (raw_scaled hscale hlo hhi) blockAddr image image'

/-! The half of a step is rounded away from zero, here with a negative scale. -/

def halves : SlaveVal where
  name := "p"
  reg := 3
  type := .s32
  bit := -1
  scale := -1 / 2
  offset := 1
  wordSwap := true
  sfName := none

/-- A device that has got a request. -/
def device (reg : Int) (words : List (BitVec 16)) (i : Int) : BitVec 16 := words.getD (i - reg).toNat 0

theorem holds_device (reg : Int) (words : List (BitVec 16)) : Holds (device reg words) reg words := by
  intro i w h
  unfold device
  rw [show (reg + i - reg).toNat = i by omega, List.getD_eq_getElem?_getD, h]
  rfl

theorem read_written_half :
    ∃ g : ℚ, g = (max (-2 ^ 31) (min (cRound ((5 / 4 - 1) / (-1 / 2))) (2 ^ 31 - 1)) : Int) * (-1 / 2) + 1 ∧
      (dispatchValue (device 3 [0xffff, 0xffff]) halves 1).val = some g ∧
      ((-2 ^ 31 : Int) ≤ (5 / 4 - 1 : ℚ) / (-1 / 2) → (5 / 4 - 1 : ℚ) / (-1 / 2) ≤ (2 ^ 31 - 1 : Int) →
        |g - 5 / 4| ≤ |(-1 / 2 : ℚ)| / 2) ∧
      ∀ image', (halves.request 100 image' g).1 = (halves.request 100 0 (5 / 4)).1 :=
  read_written halves (-2 ^ 31) (2 ^ 31 - 1) rfl (by decide +kernel) (5 / 4) 100 0 _
    (by
      have hwords : (halves.request 100 0 (5 / 4)).1.words = [0xffff, 0xffff] := by decide +kernel
      rw [hwords]
      exact holds_device 3 _)

end Uvrgw.Mb
