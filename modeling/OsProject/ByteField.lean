import Mathlib

/-! Fixed-width little-endian fields of a byte buffer. A buffer is a total function, and a
field reads and writes only the offsets it covers. -/

namespace OsProject

abbrev Buffer := Nat → UInt8

def getLE (b : Buffer) (off : Nat) : Nat → Nat
  | 0 => 0
  | w + 1 => (b off).toNat + 256 * getLE b (off + 1) w

def putLE (b : Buffer) (off : Nat) : Nat → Nat → Buffer
  | 0, _ => b
  | w + 1, v => putLE (Function.update b off (UInt8.ofNat v)) (off + 1) w (v / 256)

/-- The first `n` values of a byte source from offset `off`. -/
def bytesFrom (c : Nat → UInt8) (off n : Nat) : List UInt8 :=
  (List.range n).map fun i => c (off + i)

def int32 (v : Nat) : Int :=
  if v < 2 ^ 31 then v else v - 2 ^ 32

theorem getLE_congr {a b : Buffer} {off w : Nat}
    (h : ∀ i, off ≤ i → i < off + w → a i = b i) : getLE a off w = getLE b off w := by
  induction w generalizing off with
  | zero => rfl
  | succ w ih =>
    simp only [getLE]
    rw [h off (by omega) (by omega), ih (fun i hi hj => h i (by omega) (by omega))]

theorem getLE_lt (b : Buffer) (off w : Nat) : getLE b off w < 256 ^ w := by
  induction w generalizing off with
  | zero => exact Nat.one_pos
  | succ w ih =>
    have hb : (b off).toNat < 256 := (b off).toNat_lt
    have hrest := ih (off + 1)
    rw [getLE, pow_succ']
    omega

theorem putLE_outside {b : Buffer} {off w v i : Nat} (h : i < off ∨ off + w ≤ i) :
    putLE b off w v i = b i := by
  induction w generalizing b off v with
  | zero => rfl
  | succ w ih =>
    simp only [putLE]
    rw [ih (by omega), Function.update_of_ne (by omega)]

theorem getLE_putLE_disjoint {b : Buffer} {off w v off' w' : Nat}
    (h : off' + w' ≤ off ∨ off + w ≤ off') : getLE (putLE b off w v) off' w' = getLE b off' w' :=
  getLE_congr (fun _ _ _ => putLE_outside (by omega))

theorem getLE_putLE (b : Buffer) (off w v : Nat) :
    getLE (putLE b off w v) off w = v % 256 ^ w := by
  induction w generalizing b off v with
  | zero => simp [getLE, Nat.mod_one]
  | succ w ih =>
    simp only [getLE, putLE, ih]
    rw [putLE_outside (by omega), Function.update_self]
    have hb : (UInt8.ofNat v).toNat = v % 256 := by simp
    rw [hb, pow_succ', Nat.mod_mul]

theorem getLE_putLE_of_lt {b : Buffer} {off w v : Nat} (h : v < 256 ^ w) :
    getLE (putLE b off w v) off w = v := by
  rw [getLE_putLE, Nat.mod_eq_of_lt h]

theorem putLE_getLE (b : Buffer) (off w : Nat) : putLE b off w (getLE b off w) = b := by
  induction w generalizing b off with
  | zero => rfl
  | succ w ih =>
    have hb : (b off).toNat < 256 := (b off).toNat_lt
    have hv : UInt8.ofNat (getLE b off (w + 1)) = b off := by
      apply UInt8.toNat_inj.mp
      simp only [getLE, UInt8.toNat_ofNat']
      omega
    have hq : getLE b off (w + 1) / 256 = getLE b (off + 1) w := by
      simp only [getLE]
      omega
    simp only [putLE, hv, hq, Function.update_eq_self, ih]

theorem getLE_zero (off w : Nat) : getLE (fun _ => 0) off w = 0 := by
  induction w generalizing off with
  | zero => rfl
  | succ w ih => simp [getLE, ih]

end OsProject
