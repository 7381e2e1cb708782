import Mathlib.Data.List.Basic
import Mathlib.Data.UInt
import Mathlib.Tactic.Linarith
import Mathlib.Tactic.Positivity
import Mathlib.Tactic.Ring

/-! The byte slices of Go's `net` package and the integers of `math/big` that address code
converts them to: `net.IP` and `net.IPMask` are lists of bytes (a `nil` slice is the empty list),
with `To4`, `Mask`, `Equal`, `CIDRMask` and `IPMask.Size` as the standard library computes them;
`bytes.Compare` is the lexicographic order of byte lists; a non-negative `big.Int` is a natural
number, read from big-endian bytes by `SetBytes` and written by `Bytes` without leading zeros. -/

namespace GoNet

/-- `net.IP`. -/
abbrev IP := List UInt8

/-- `net.IPMask`. -/
abbrev IPMask := List UInt8

/-- `net.IPNet`. -/
structure IPNet where
  ip : IP
  mask : IPMask
  deriving DecidableEq, Repr

/-- `net.IPv4len` and `net.IPv6len`. -/
def ipv4len : ℕ := 4
def ipv6len : ℕ := 16

/-- `v4InV6Prefix`: the first twelve bytes of an IPv4-mapped IPv6 address. -/
def v4InV6Prefix : List UInt8 := [0, 0, 0, 0, 0, 0, 0, 0, 0, 0, 0xff, 0xff]

/-- `bytes.Compare`. -/
def compareBytes : List UInt8 → List UInt8 → Ordering
  | [], [] => .eq
  | [], _ :: _ => .lt
  | _ :: _, [] => .gt
  | a :: as, b :: bs => if a < b then .lt else if b < a then .gt else compareBytes as bs

namespace IP

/-- `IP.To4`: a 4-byte address, or the last four bytes of an IPv4-mapped one; `nil` else. -/
def to4 (ip : IP) : IP :=
  if ip.length = ipv4len then ip
  else if ip.length = ipv6len ∧ ip.take 12 = v4InV6Prefix then ip.drop 12
  else []

/-- `IP.To16`. -/
def to16 (ip : IP) : IP :=
  if ip.length = ipv4len then v4InV6Prefix ++ ip
  else if ip.length = ipv6len then ip
  else []

/-- `IP.Mask`: a 16-byte mask of a 4-byte address, or a 4-byte mask of a mapped address, is cut
to the other's length; `nil` when the lengths still differ. -/
def mask (ip : IP) (mask : IPMask) : IP :=
  let mask := if mask.length = ipv6len ∧ ip.length = ipv4len ∧ (mask.take 12).all (· = 0xff) then
      mask.drop 12 else mask
  let ip := if mask.length = ipv4len ∧ ip.length = ipv6len ∧ ip.take 12 = v4InV6Prefix then
      ip.drop 12 else ip
  if ip.length ≠ mask.length then [] else List.zipWith (· &&& ·) ip mask

/-- `IP.Equal`: a 4-byte address equals its mapped form. -/
def equal (ip x : IP) : Bool :=
  if ip.length = x.length then ip == x
  else if ip.length = ipv4len ∧ x.length = ipv6len then x.take 12 == v4InV6Prefix && ip == x.drop 12
  else if ip.length = ipv6len ∧ x.length = ipv4len then ip.take 12 == v4InV6Prefix && ip.drop 12 == x
  else false

end IP

/-- The byte of `CIDRMask` that holds `n` of the remaining ones. -/
def maskByte (n : ℕ) : UInt8 := if n ≥ 8 then 0xff else ~~~((0xff : UInt8) >>> n.toUInt8)

/-- `net.CIDRMask`: `ones` leading ones in `bits / 8` bytes; `nil` for a length other than 32 or
128 bits or more ones than bits. -/
def cidrMask (ones bits : ℕ) : IPMask :=
  if bits ≠ 8 * ipv4len ∧ bits ≠ 8 * ipv6len then []
  else if ones > bits then []
  else (List.range (bits / 8)).map fun i => maskByte (ones - 8 * i)

/-- The ones of a mask byte from the top, and whether the rest of the byte is zero. -/
def leadingOnes (v : UInt8) : ℕ × Bool :=
  let n := (List.range 8).findIdx fun j => (v >>> (7 - j).toUInt8) &&& 1 = 0
  (n, v <<< n.toUInt8 = 0)

/-- `simpleMaskLength`: the leading ones of a canonical mask, `none` for `-1`. -/
def simpleMaskLength : IPMask → Option ℕ
  | [] => some 0
  | v :: rest =>
    if v = 0xff then (simpleMaskLength rest).map (· + 8)
    else
      let (n, zero) := leadingOnes v
      if zero ∧ rest.all (· = 0) then some n else none

/-- `IPMask.Size`: the ones and the bits of a canonical mask, `(0, 0)` for another. -/
def IPMask.size (m : IPMask) : ℕ × ℕ :=
  match simpleMaskLength m with
  | some ones => (ones, m.length * 8)
  | none => (0, 0)

/-- `big.Int.SetBytes`: the big-endian value of the bytes. -/
def setBytes (b : List UInt8) : ℕ := b.foldl (fun acc x => acc * 256 + x.toNat) 0

/-- The big-endian bytes of `n` without leading zeros, from `fuel` rounds. -/
def bytesOf : ℕ → ℕ → List UInt8
  | 0, _ => []
  | fuel + 1, n => if n = 0 then [] else bytesOf fuel (n / 256) ++ [(n % 256).toUInt8]

/-- `big.Int.Bytes`: the big-endian bytes without leading zeros; none for zero. -/
def intBytes (n : ℕ) : List UInt8 := bytesOf n n

/-- The `k` big-endian bytes of `n` modulo `256 ^ k`, as `binary.BigEndian.PutUint32` and
`PutUint64` write them. -/
def putBytes (k n : ℕ) : List UInt8 := (List.range k).map fun j => (n / 256 ^ (k - 1 - j) % 256).toUInt8

/-! ### Big-endian values, and `bytes.Compare` as their order -/

theorem foldl_setBytes (acc : ℕ) (l : List UInt8) :
    l.foldl (fun acc x => acc * 256 + x.toNat) acc = acc * 256 ^ l.length + setBytes l := by
  induction l generalizing acc with
  | nil => simp [setBytes]
  | cons x l ih =>
    simp only [List.foldl_cons, setBytes, List.length_cons]
    rw [ih, ih (0 * 256 + x.toNat)]
    ring

theorem setBytes_cons (x : UInt8) (l : List UInt8) :
    setBytes (x :: l) = x.toNat * 256 ^ l.length + setBytes l := by
  simp only [setBytes, List.foldl_cons]
  rw [foldl_setBytes]
  simp [setBytes]

theorem setBytes_append (a b : List UInt8) :
    setBytes (a ++ b) = setBytes a * 256 ^ b.length + setBytes b := by
  simp only [setBytes, List.foldl_append]
  rw [foldl_setBytes]
  rfl

theorem setBytes_lt (l : List UInt8) : setBytes l < 256 ^ l.length := by
  induction l with
  | nil => simp [setBytes]
  | cons x l ih =>
    have hx : x.toNat < 256 := x.toNat_lt
    rw [setBytes_cons, List.length_cons, pow_succ]
    nlinarith

theorem setBytes_eq_zero_iff (l : List UInt8) : setBytes l = 0 ↔ ∀ x ∈ l, x = 0 := by
  induction l with
  | nil => simp [setBytes]
  | cons x l ih =>
    have hpos : 0 < 256 ^ l.length := by positivity
    rw [setBytes_cons, List.forall_mem_cons, ← ih, ← UInt8.toNat_inj, UInt8.toNat_zero]
    constructor
    · intro h
      have : x.toNat * 256 ^ l.length = 0 := by omega
      exact ⟨by simpa [hpos.ne'] using this, by omega⟩
    · rintro ⟨hx, hl⟩
      rw [hx, hl]
      simp

theorem compareBytes_self (a : List UInt8) : compareBytes a a = .eq := by
  induction a with
  | nil => rfl
  | cons x a ih => simp [compareBytes, ih]

/-- `bytes.Compare` with the arguments swapped. -/
theorem compareBytes_swap (a b : List UInt8) : compareBytes b a = (compareBytes a b).swap := by
  induction a generalizing b with
  | nil => cases b <;> rfl
  | cons x a ih =>
    cases b with
    | nil => rfl
    | cons y b =>
      simp only [compareBytes]
      split_ifs <;> first | rfl | exact ih b | (exfalso; simp only [UInt8.lt_iff_toNat_lt] at *; omega)

/-- The order of `bytes.Compare` is transitive. -/
theorem compareBytes_ne_gt_trans {a b c : List UInt8} (hab : compareBytes a b ≠ .gt)
    (hbc : compareBytes b c ≠ .gt) : compareBytes a c ≠ .gt := by
  induction a generalizing b c with
  | nil => cases c <;> simp [compareBytes]
  | cons x a ih =>
    cases b with
    | nil => simp [compareBytes] at hab
    | cons y b =>
      cases c with
      | nil => simp [compareBytes] at hbc
      | cons z c =>
        simp only [compareBytes, UInt8.lt_iff_toNat_lt] at hab hbc ⊢
        split_ifs at hab hbc ⊢ <;> first | exact absurd rfl ‹_› | omega | (exact ih hab hbc)

/-- Two slices of one length compare as their big-endian values. -/
theorem compareBytes_eq_compare {a b : List UInt8} (h : a.length = b.length) :
    compareBytes a b = compare (setBytes a) (setBytes b) := by
  induction a generalizing b with
  | nil => cases b with
    | nil => rfl
    | cons _ _ => simp at h
  | cons x a ih =>
    cases b with
    | nil => simp at h
    | cons y b =>
      have hl : a.length = b.length := by simpa using h
      have ha := setBytes_lt a
      have hb : setBytes b < 256 ^ a.length := hl ▸ setBytes_lt b
      rw [setBytes_cons, setBytes_cons, ← hl]
      simp only [compareBytes, UInt8.lt_iff_toNat_lt]
      split_ifs with hxy hyx
      · -- the first bytes decide, whatever follows
        have : (x.toNat + 1) * 256 ^ a.length ≤ y.toNat * 256 ^ a.length :=
          Nat.mul_le_mul_right _ (by omega)
        symm
        rw [Nat.compare_eq_lt]
        linarith
      · have : (y.toNat + 1) * 256 ^ a.length ≤ x.toNat * 256 ^ a.length :=
          Nat.mul_le_mul_right _ (by omega)
        symm
        rw [Nat.compare_eq_gt]
        linarith
      · have hxy' : x.toNat = y.toNat := by omega
        rw [ih hl, hxy']
        rcases lt_trichotomy (setBytes a) (setBytes b) with hab | hab | hab
        · rw [Nat.compare_eq_lt.mpr hab, Nat.compare_eq_lt.mpr (by omega)]
        · rw [hab, Nat.compare_eq_eq.mpr rfl, Nat.compare_eq_eq.mpr rfl]
        · rw [Nat.compare_eq_gt.mpr hab, Nat.compare_eq_gt.mpr (by omega)]

theorem compareBytes_ne_gt_iff {a b : List UInt8} (h : a.length = b.length) :
    compareBytes a b ≠ .gt ↔ setBytes a ≤ setBytes b := by
  rw [compareBytes_eq_compare h, Ne, Nat.compare_eq_gt, not_lt]

theorem compareBytes_eq_lt_iff {a b : List UInt8} (h : a.length = b.length) :
    compareBytes a b = .lt ↔ setBytes a < setBytes b := by
  rw [compareBytes_eq_compare h, Nat.compare_eq_lt]

end GoNet
