import Mathlib.Data.Nat.Bitwise
import Mathlib.Data.UInt
import Mathlib.Tactic.IntervalCases
import Cilium.Lib.CyclicPosition

/-! The ring buffer of Hubble events (`pkg/hubble/container/ring.go`) and how `read` classifies a
read position against the write counter.  Positions and the counter are `uint64`s that wrap; a
position is a cycle (`pos >> cycleExp`) and a slot (`pos & mask`).  Go's `>>` gives zero for a
shift count of 64 or more, which `shr` keeps. -/

namespace Cilium.Hubble

/-- Go's `>>` on `uint64`. -/
def shr (x : UInt64) (n : Nat) : UInt64 := if n < 64 then x >>> n.toUInt64 else 0

/-- The loop of `math.MSB`, which stops by 64 since a shift by 64 gives zero. -/
def msbLoop (x : UInt64) : Nat → Nat → Nat
  | 0, i => i
  | fuel + 1, i => if shr x i != 0 then msbLoop x fuel (i + 1) else i

/-- `math.MSB`: the number of significant bits. -/
def msb (x : UInt64) : UInt8 := (msbLoop x 64 0).toUInt8

/-- `math.GetMask`: the low `x` bits set. -/
def getMask (x : UInt8) : UInt64 := shr (~~~0) (64 - x).toNat

/-- `Ring`: the event slots and the fields that `NewRing` derives from its capacity. -/
structure Ring (α : Type) where
  mask : UInt64
  write : UInt64
  cycleExp : UInt8
  cycleMask : UInt64
  halfCycle : UInt64
  dataLen : UInt64
  data : List (Option α)

/-- `NewRing`, for a capacity `n` of one less than a power of two. -/
def newRing {α : Type} (n : UInt16) : Ring α :=
  let mask := getMask (msb n.toUInt64)
  let dataLen := mask + 1
  let cycleExp := msb (mask + 1) - 1
  { mask, write := 0, cycleExp,
    cycleMask := shr (~~~0) cycleExp.toNat,
    halfCycle := shr (shr (~~~0) cycleExp.toNat) 1,
    dataLen,
    data := List.replicate dataLen.toNat none }

/-- What `read` returns: the stored event, a ring-buffer `LostEvent`, or `io.EOF`. -/
inductive ReadResult (α : Type) where
  | event (e : α)
  | lostEvent
  | eof
  deriving DecidableEq, Repr

namespace Ring

variable {α : Type}

/-- `Ring.Write`: the counter moves first, then the event is stored in the slot it passed. -/
def Write (r : Ring α) (entry : α) : Ring α :=
  let write := r.write + 1
  let writeIdx := (write - 1) &&& r.mask
  { r with write, data := r.data.set writeIdx.toNat (some entry) }

/-- `Ring.read`. -/
def read (r : Ring α) (read : UInt64) : ReadResult α :=
  let readIdx := read &&& r.mask
  let event := (r.data[readIdx.toNat]?).join
  let lastWrite := r.write - 1
  let lastWriteIdx := lastWrite &&& r.mask
  let readCycle := shr read r.cycleExp.toNat
  let writeCycle := shr lastWrite r.cycleExp.toNat
  let prevWriteCycle := (writeCycle - 1) &&& r.cycleMask
  let maxWriteCycle := (writeCycle + r.halfCycle) &&& r.cycleMask
  -- the reader in the writer's cycle, behind it
  if readCycle = writeCycle ∧ readIdx < lastWriteIdx then
    match event with
    | none => .eof
    | some e => .event e
  -- the reader in the previous cycle, ahead of the writer's slot
  else if readCycle = prevWriteCycle ∧ readIdx > lastWriteIdx then
    match event with
    | none => .lostEvent
    | some e => .event e
  -- the reader ahead of the writer
  else if readCycle ≥ writeCycle ∧ readCycle < maxWriteCycle then .eof
  else .lostEvent

end Ring


namespace Ring

variable {α : Type} {k : Nat}

/-- The fields that \code{NewRing} derives for a slot count of \code{2 ^ k}. -/
structure Shape (r : Ring α) (k : Nat) : Prop where
  exp_pos : 1 ≤ k
  exp_lt : k < 64
  mask_toNat : r.mask.toNat = 2 ^ k - 1
  cycleExp_toNat : r.cycleExp.toNat = k
  cycleMask_toNat : r.cycleMask.toNat = 2 ^ (64 - k) - 1
  halfCycle_toNat : r.halfCycle.toNat = 2 ^ (63 - k) - 1

theorem newRing_shape (k : Nat) (hk1 : 1 ≤ k) (hk : k ≤ 16) :
    (newRing (α := α) (UInt16.ofNat (2 ^ k - 1))).Shape k := by
  -- the derived fields do not depend on the event type: compute them for one
  have hU : (newRing (α := Unit) (UInt16.ofNat (2 ^ k - 1))).Shape k := by
    refine ⟨hk1, by omega, ?_, ?_, ?_, ?_⟩ <;> interval_cases k <;> decide
  exact ⟨hU.1, hU.2, hU.3, hU.4, hU.5, hU.6⟩

end Ring

theorem shr_toNat (x : UInt64) {n : Nat} (hn : n < 64) : (shr x n).toNat = x.toNat / 2 ^ n := by
  have hn' : n.toUInt64.toNat = n := by
    rw [Nat.toUInt64_eq, UInt64.toNat_ofNat', Nat.mod_eq_of_lt (by omega)]
  rw [shr, if_pos hn, UInt64.toNat_shiftRight, hn', Nat.mod_eq_of_lt hn, Nat.shiftRight_eq_div_pow]

namespace Ring.Shape

variable {α : Type} {r : Ring α} {k : Nat}

theorem pow_mul_pow (hS : r.Shape k) : 2 ^ k * 2 ^ (64 - k) = 2 ^ 64 := by
  rw [← Nat.pow_add, Nat.add_sub_cancel' hS.exp_lt.le]

theorem cycles_eq (hS : r.Shape k) : 2 ^ (64 - k) = 2 * 2 ^ (63 - k) := by
  rw [show 64 - k = 63 - k + 1 by have := hS.exp_lt; omega, Nat.pow_succ']

theorem and_mask_toNat (hS : r.Shape k) (x : UInt64) : (x &&& r.mask).toNat = x.toNat % 2 ^ k := by
  rw [UInt64.toNat_and, hS.mask_toNat, Nat.and_two_pow_sub_one_eq_mod]

theorem cycle_lt (hS : r.Shape k) (x : UInt64) : x.toNat / 2 ^ k < 2 ^ (64 - k) := by
  apply Nat.div_lt_of_lt_mul
  rw [hS.pow_mul_pow]
  exact x.toNat_lt

theorem and_cycleMask_toNat (hS : r.Shape k) (x : UInt64) :
    (x &&& r.cycleMask).toNat = x.toNat % 2 ^ (64 - k) := by
  rw [UInt64.toNat_and, hS.cycleMask_toNat, Nat.and_two_pow_sub_one_eq_mod]

/-- The cycle before the writer's, wrapping from cycle zero to the last one. -/
theorem prev_cycle_toNat (hS : r.Shape k) (x : UInt64) :
    ((shr x k - 1) &&& r.cycleMask).toNat =
      (x.toNat / 2 ^ k + 2 ^ (64 - k) - 1) % 2 ^ (64 - k) := by
  have hk := hS.exp_lt
  rw [hS.and_cycleMask_toNat, UInt64.toNat_sub, shr_toNat x hS.exp_lt, UInt64.toNat_one,
    Nat.mod_mod_of_dvd _ (Nat.pow_dvd_pow 2 (by omega))]
  -- 2^64 - 1 + c and c + C - 1 differ by a multiple of C
  rw [← hS.pow_mul_pow]
  exact CyclicPosition.sub_one_add_mod (Nat.two_pow_pos k) (Nat.two_pow_pos _)

theorem max_cycle_toNat (hS : r.Shape k) (x : UInt64) :
    ((shr x k + r.halfCycle) &&& r.cycleMask).toNat =
      (x.toNat / 2 ^ k + (2 ^ (63 - k) - 1)) % 2 ^ (64 - k) := by
  have hc := hS.cycle_lt x
  have hh := hS.cycles_eq
  rw [hS.and_cycleMask_toNat, UInt64.toNat_add, shr_toNat x hS.exp_lt, hS.halfCycle_toNat,
    Nat.mod_eq_of_lt (a := x.toNat / 2 ^ k + _) (by
      have : 2 ^ (64 - k) ≤ 2 ^ 63 := Nat.pow_le_pow_right (by omega) (by have := hS.exp_pos; omega)
      omega)]

end Ring.Shape

namespace Ring

variable {α : Type} {k : Nat}

/-- How far a read position is behind the last write, modulo 2^64. -/
def behind (r : Ring α) (read : UInt64) : Nat := (r.write - 1 - read).toNat

/-- How far a read position is past the last write, modulo 2^64. -/
def ahead (r : Ring α) (read : UInt64) : Nat := (read - (r.write - 1)).toNat

/-- The slot of the last write, as in read. -/
def lastWriteIdx (r : Ring α) : Nat := ((r.write - 1) &&& r.mask).toNat

/-- The event stored in the slot of a read position. -/
def slot (r : Ring α) (read : UInt64) : Option α := (r.data[(read &&& r.mask).toNat]?).join

namespace Shape

variable {r : Ring α}

/-- The shape is fixed by NewRing: moving the counter or storing events keeps it. -/
theorem setWrite (hS : r.Shape k) (w : UInt64) (data : List (Option α)) :
    ({ r with write := w, data } : Ring α).Shape k :=
  ⟨hS.1, hS.2, hS.3, hS.4, hS.5, hS.6⟩

theorem afterWrite (hS : r.Shape k) (e : α) : (r.Write e).Shape k :=
  hS.setWrite _ _

theorem toNat_lt (hS : r.Shape k) (x : UInt64) : x.toNat < 2 ^ k * 2 ^ (64 - k) := by
  rw [hS.pow_mul_pow]
  exact x.toNat_lt

theorem behind_eq (hS : r.Shape k) (pos : UInt64) :
    r.behind pos = (2 ^ k * 2 ^ (64 - k) - pos.toNat + (r.write - 1).toNat) %
      (2 ^ k * 2 ^ (64 - k)) := by
  rw [behind, UInt64.toNat_sub, hS.pow_mul_pow]

theorem ahead_eq (hS : r.Shape k) (pos : UInt64) :
    r.ahead pos = (2 ^ k * 2 ^ (64 - k) - (r.write - 1).toNat + pos.toNat) %
      (2 ^ k * 2 ^ (64 - k)) := by
  rw [ahead, UInt64.toNat_sub, hS.pow_mul_pow]

theorem lastWriteIdx_eq (hS : r.Shape k) : r.lastWriteIdx = (r.write - 1).toNat % 2 ^ k :=
  hS.and_mask_toNat _

/-- read on cycles and slots as natural numbers. -/
theorem read_eq (hS : r.Shape k) (pos : UInt64) :
    r.read pos =
      if pos.toNat / 2 ^ k = (r.write - 1).toNat / 2 ^ k ∧
          pos.toNat % 2 ^ k < (r.write - 1).toNat % 2 ^ k then
        (r.slot pos).elim .eof .event
      else if pos.toNat / 2 ^ k =
            ((r.write - 1).toNat / 2 ^ k + 2 ^ (64 - k) - 1) % 2 ^ (64 - k) ∧
          (r.write - 1).toNat % 2 ^ k < pos.toNat % 2 ^ k then
        (r.slot pos).elim .lostEvent .event
      else if (r.write - 1).toNat / 2 ^ k ≤ pos.toNat / 2 ^ k ∧
          pos.toNat / 2 ^ k < ((r.write - 1).toNat / 2 ^ k + (2 ^ (63 - k) - 1)) % 2 ^ (64 - k) then
        .eof
      else .lostEvent := by
  simp only [read, slot, hS.cycleExp_toNat, ← UInt64.toNat_inj, UInt64.lt_iff_toNat_lt,
    UInt64.le_iff_toNat_le, gt_iff_lt, hS.and_mask_toNat, hS.prev_cycle_toNat,
    hS.max_cycle_toNat, shr_toNat _ hS.exp_lt]
  cases (r.data[pos.toNat % 2 ^ k]?).join <;> rfl

/-- A reader one to lastWriteIdx behind the last write is in the writer's cycle: it gets the
slot's event, or EOF for an empty slot. -/
theorem read_of_behind_le (hS : r.Shape k) {pos : UInt64} (h1 : 1 ≤ r.behind pos)
    (h2 : r.behind pos ≤ r.lastWriteIdx) : r.read pos = (r.slot pos).elim .eof .event := by
  rw [hS.behind_eq] at h1 h2
  rw [hS.lastWriteIdx_eq] at h2
  have hw := (CyclicPosition.writer_cycle_iff (Nat.two_pow_pos k) (hS.toNat_lt (r.write - 1))
    (hS.toNat_lt pos)).2 ⟨h1, h2⟩
  rw [hS.read_eq, if_pos hw]

/-- A reader further behind, but by less than a cycle, is in the previous cycle: it gets the
slot's event, or a lost event for an empty slot. -/
theorem read_of_lastWriteIdx_lt (hS : r.Shape k) {pos : UInt64} (h1 : r.lastWriteIdx < r.behind pos)
    (h2 : r.behind pos < 2 ^ k) : r.read pos = (r.slot pos).elim .lostEvent .event := by
  have hC : 2 ≤ 2 ^ (64 - k) := Nat.le_self_pow (by have := hS.exp_lt; omega) 2
  rw [hS.behind_eq] at h1 h2
  rw [hS.lastWriteIdx_eq] at h1
  have hw := CyclicPosition.writer_cycle_iff (Nat.two_pow_pos k) (hS.toNat_lt (r.write - 1))
    (hS.toNat_lt pos)
  have hp := (CyclicPosition.prev_cycle_iff (Nat.two_pow_pos k) hC (hS.toNat_lt (r.write - 1))
    (hS.toNat_lt pos)).2 ⟨h1, h2⟩
  rw [hS.read_eq, if_neg (by rw [hw]; omega), if_pos hp]

/-- A reader not behind the last write by one to 2^k - 1 gets EOF exactly when its cycle is in
the window of halfCycle cycles from the writer's. -/
theorem read_of_not_behind (hS : r.Shape k) {pos : UInt64}
    (hd : r.behind pos = 0 ∨ 2 ^ k ≤ r.behind pos) :
    r.read pos =
      if (r.write - 1).toNat / 2 ^ k ≤ pos.toNat / 2 ^ k ∧
          pos.toNat / 2 ^ k < ((r.write - 1).toNat / 2 ^ k + (2 ^ (63 - k) - 1)) % 2 ^ (64 - k) then
        .eof
      else .lostEvent := by
  have hC : 2 ≤ 2 ^ (64 - k) := Nat.le_self_pow (by have := hS.exp_lt; omega) 2
  have hi : (r.write - 1).toNat % 2 ^ k < 2 ^ k := Nat.mod_lt _ (Nat.two_pow_pos k)
  rw [hS.behind_eq] at hd
  have hw := CyclicPosition.writer_cycle_iff (Nat.two_pow_pos k) (hS.toNat_lt (r.write - 1))
    (hS.toNat_lt pos)
  have hp := CyclicPosition.prev_cycle_iff (Nat.two_pow_pos k) hC (hS.toNat_lt (r.write - 1))
    (hS.toNat_lt pos)
  rw [hS.read_eq, if_neg (by rw [hw]; omega), if_neg (by rw [hp]; omega)]

/-- In the lower half of the cycle space, the EOF window of a reader not behind the last write
is the halfCycle cycles after the writer's cycle begins, so it ends lastWriteIdx short of
halfCycle * dataLen past the last write. -/
theorem read_of_not_behind_low (hS : r.Shape k) (hlow : (r.write - 1).toNat / 2 ^ k ≤ 2 ^ (63 - k))
    {pos : UInt64} (hd : r.behind pos = 0 ∨ 2 ^ k ≤ r.behind pos) :
    r.read pos = if r.ahead pos < (2 ^ (63 - k) - 1) * 2 ^ k - r.lastWriteIdx then .eof
      else .lostEvent := by
  have hC := hS.cycles_eq
  have hpos : 1 ≤ 2 ^ (63 - k) := Nat.one_le_two_pow
  have hw := CyclicPosition.writer_cycle_iff (Nat.two_pow_pos k) (hS.toNat_lt (r.write - 1))
    (hS.toNat_lt pos)
  have hd' := hd
  rw [hS.behind_eq] at hd'
  have hwin := CyclicPosition.ahead_iff (h := 2 ^ (63 - k) - 1) (Nat.two_pow_pos k)
    (hS.toNat_lt (r.write - 1)) (hS.toNat_lt pos) (by omega) (by rw [hw]; omega)
  rw [hS.read_of_not_behind hd, hS.ahead_eq, hS.lastWriteIdx_eq]
  exact if_congr hwin rfl rfl

/-- One write into a ring of eight slots: the last write is position 0, and position 0 is in the
EOF window. -/
theorem read_of_not_behind_low_first :
    (((newRing (α := Nat) (UInt16.ofNat (2 ^ 3 - 1))).Write 7).write - 1).toNat / 2 ^ 3 ≤
        2 ^ (63 - 3) ∧
      (((newRing (α := Nat) (UInt16.ofNat (2 ^ 3 - 1))).Write 7).behind 0 = 0 ∨
        2 ^ 3 ≤ ((newRing (α := Nat) (UInt16.ofNat (2 ^ 3 - 1))).Write 7).behind 0) ∧
      ((newRing (α := Nat) (UInt16.ofNat (2 ^ 3 - 1))).Write 7).read 0 =
        if ((newRing (α := Nat) (UInt16.ofNat (2 ^ 3 - 1))).Write 7).ahead 0 <
            (2 ^ (63 - 3) - 1) * 2 ^ 3 -
              ((newRing (α := Nat) (UInt16.ofNat (2 ^ 3 - 1))).Write 7).lastWriteIdx then
          .eof
        else .lostEvent :=
  ⟨by decide, by decide,
    read_of_not_behind_low ((newRing_shape 3 (by decide) (by decide)).afterWrite 7) (by decide)
      (by decide)⟩

/-- In the upper half of the cycle space, the window of halfCycle cycles after the writer's wraps
below it, so every reader not behind the last write by one to 2^k - 1 gets a lost event. -/
theorem read_of_not_behind_high (hS : r.Shape k)
    (hhigh : 2 ^ (63 - k) < (r.write - 1).toNat / 2 ^ k) {pos : UInt64}
    (hd : r.behind pos = 0 ∨ 2 ^ k ≤ r.behind pos) : r.read pos = .lostEvent := by
  have hC := hS.cycles_eq
  have hpos : 1 ≤ 2 ^ (63 - k) := Nat.one_le_two_pow
  rw [hS.read_of_not_behind hd, if_neg (CyclicPosition.not_ahead_of_wrap (hS.toNat_lt (r.write - 1))
    (by omega) (by omega))]

theorem read_of_not_behind_high_fresh :
    2 ^ (63 - 3) < ((newRing (α := Nat) (UInt16.ofNat (2 ^ 3 - 1))).write - 1).toNat / 2 ^ 3 ∧
      2 ^ 3 ≤ (newRing (α := Nat) (UInt16.ofNat (2 ^ 3 - 1))).behind 1 ∧
      (newRing (α := Nat) (UInt16.ofNat (2 ^ 3 - 1))).read 1 = .lostEvent :=
  ⟨by decide, by decide,
    read_of_not_behind_high (newRing_shape 3 (by decide) (by decide)) (by decide)
      (Or.inr (by decide))⟩

/-- read returns an event exactly for the positions one to 2^k - 1 behind the last write whose
slot holds one, whatever the write counter. -/
theorem read_eq_event_iff (hS : r.Shape k) (pos : UInt64) (e : α) :
    r.read pos = .event e ↔ (1 ≤ r.behind pos ∧ r.behind pos < 2 ^ k) ∧ r.slot pos = some e := by
  by_cases h1 : 1 ≤ r.behind pos ∧ r.behind pos < 2 ^ k
  · rcases Nat.lt_or_ge r.lastWriteIdx (r.behind pos) with h2 | h2
    · rw [hS.read_of_lastWriteIdx_lt h2 h1.2]
      cases r.slot pos <;> simp [h1]
    · rw [hS.read_of_behind_le h1.1 h2]
      cases r.slot pos <;> simp [h1]
  · rw [hS.read_of_not_behind (by omega)]
    split <;> simp [h1]

theorem read_eq_event_iff_fresh :
    (newRing (α := Nat) (UInt16.ofNat (2 ^ 3 - 1))).Shape 3 ∧
      ((newRing (α := Nat) (UInt16.ofNat (2 ^ 3 - 1))).read 5 = .event 0 ↔
        (1 ≤ (newRing (α := Nat) (UInt16.ofNat (2 ^ 3 - 1))).behind 5 ∧
          (newRing (α := Nat) (UInt16.ofNat (2 ^ 3 - 1))).behind 5 < 2 ^ 3) ∧
        (newRing (α := Nat) (UInt16.ofNat (2 ^ 3 - 1))).slot 5 = some 0) :=
  ⟨newRing_shape 3 (by decide) (by decide),
    read_eq_event_iff (newRing_shape 3 (by decide) (by decide)) 5 0⟩

end Shape

/-- A fresh ring of eight slots: position zero is one past the last write, which the distance
rule puts in the EOF window, yet read gives a lost event. -/
theorem fresh_ring_read_zero :
    2 ^ 64 - ((newRing (α := Nat) 7).write - 1 - 0).toNat <
        (newRing (α := Nat) 7).halfCycle.toNat * (newRing (α := Nat) 7).dataLen.toNat ∧
      (newRing (α := Nat) 7).read 0 = .lostEvent := by
  decide

end Ring

end Cilium.Hubble
