import Mathlib.Data.UInt
import Mathlib.Data.List.Basic
import Mathlib.Data.Nat.Prime.Basic
import Cilium.Lib.Stride

/-! The permutation rows of Maglev (pkg/maglev/maglev.go).  Each backend's row is the stride
from `offset` by `skip` modulo the table size `m`, with `offset` and `skip` taken from the two
halves of the backend's 128-bit hash.  The hash (murmur3.Hash128) is a parameter: every result
holds for any function from bytes and a seed to two words.

getPermutation splits the backends into batches of `len / numCPU` and runs one goroutine per
batch, each writing the rows of its backends into a shared buffer that is kept between calls.
The batches write disjoint ranges of the buffer, so the goroutines are run here one after the
other.  `getPermutation_eq_rows` says that the slice it returns is the rows laid end to end,
whatever the number of CPUs and whatever the buffer held before.  The callers pass
`runtime.NumCPU()`, which is at least one: with `numCPU = 0` Go would divide by zero and panic,
where the model's division gives zero and one batch. -/

namespace Cilium.Maglev

/-- loadbalancer.BackendID. -/
abbrev BackendID := UInt32

/-- The fields of BackendInfo that the table computation reads.  The hash string is the one
setHashString derives from the address. -/
structure BackendInfo where
  ID : BackendID
  Weight : UInt16
  hashString : String
deriving DecidableEq, Repr

/-- The fields of Config that the table computation reads. -/
structure Config where
  TableSize : ℕ
  SeedMurmur : UInt32
deriving DecidableEq, Repr

def maglevSupportedTableSizes : List ℕ :=
  [251, 509, 1021, 2039, 4093, 8191, 16381, 32749, 65521, 131071]

def derivePermutationSliceLen (m : ℕ) : ℕ := (m / 100) * m

/-- One row from `x`: `x`, then each entry the previous one plus `skip`, modulo `m`. -/
def permutationRow (skip m : UInt64) : UInt64 → ℕ → List UInt64
  | _, 0 => []
  | x, k + 1 => x :: permutationRow skip m ((x + skip) % m) k

/-- The loop of one row in a goroutine of getPermutation: `perm[start] = offset`, then
`perm[start + j] = (perm[start + j - 1] + skip) % m`.  The entry just written is carried as `x`
instead of being read back from the buffer. -/
def writeRow (start : ℕ) (skip m : UInt64) : List UInt64 → UInt64 → ℕ → ℕ → List UInt64
  | buf, _, _, 0 => buf
  | buf, x, j, k + 1 => writeRow start skip m (buf.set (start + j) x) ((x + skip) % m) (j + 1) k

/-- The batches `[g, min (g + batchSize) bCount)` of the loop of getPermutation. -/
def batchLoop (bCount batchSize g : ℕ) : List (ℕ × ℕ) :=
  if g < bCount ∧ 0 < batchSize then
    (g, min (g + batchSize) bCount) :: batchLoop bCount batchSize (g + batchSize)
  else []
termination_by bCount - g

section Hash

variable (hash128 : List UInt8 → UInt32 → UInt64 × UInt64)

def getOffsetAndSkip (addr : List UInt8) (m : UInt64) (seed : UInt32) : UInt64 × UInt64 :=
  let h := hash128 addr seed
  (h.1 % m, h.2 % (m - 1) + 1)

/-- The offset and skip of a backend's row. -/
def offsetAndSkip (cfg : Config) (b : BackendInfo) : UInt64 × UInt64 :=
  getOffsetAndSkip hash128 b.hashString.toUTF8.toList cfg.TableSize.toUInt64 cfg.SeedMurmur

/-- The row of backend `b`. -/
def backendRow (cfg : Config) (b : BackendInfo) : List UInt64 :=
  permutationRow (offsetAndSkip hash128 cfg b).2 cfg.TableSize.toUInt64
    (offsetAndSkip hash128 cfg b).1 cfg.TableSize

/-- The rows of all backends laid end to end: what getPermutation computes. -/
def permutationRows (cfg : Config) (backends : List BackendInfo) : List UInt64 :=
  (backends.map (backendRow hash128 cfg)).flatten

/-- The body of a goroutine for backend `i`: its row written at `i * m`. -/
def writeBackendRow (cfg : Config) (backends : List BackendInfo) (buf : List UInt64) (i : ℕ) :
    List UInt64 :=
  match backends[i]? with
  | some b =>
    writeRow (i * cfg.TableSize) (offsetAndSkip hash128 cfg b).2 cfg.TableSize.toUInt64 buf
      (offsetAndSkip hash128 cfg b).1 0 cfg.TableSize
  | none => buf

/-- One goroutine: the rows of the backends from `lo` to `hi`. -/
def writeBatch (cfg : Config) (backends : List BackendInfo) (buf : List UInt64) (lo hi : ℕ) :
    List UInt64 :=
  (List.range' lo (hi - lo)).foldl (writeBackendRow hash128 cfg backends) buf

/-- getPermutation, with the buffer `permutations` kept in the Maglev object: it returns the
buffer after the call and the slice of it that the table uses. -/
def getPermutation (cfg : Config) (permutations : List UInt64) (backends : List BackendInfo)
    (numCPU : ℕ) : List UInt64 × List UInt64 :=
  if backends = [] then (permutations, [])
  else
    let m := cfg.TableSize
    let size := backends.length * m
    let buf :=
      if size > permutations.length then
        List.replicate (max (derivePermutationSliceLen m) size) 0
      else permutations
    let bCount := backends.length
    let batchSize := if bCount / numCPU = 0 then bCount else bCount / numCPU
    let buf := (batchLoop bCount batchSize 0).foldl
      (fun buf lohi => writeBatch hash128 cfg backends buf lohi.1 lohi.2) buf
    (buf, buf.take (bCount * m))

end Hash

/-! ### One row -/

@[simp]
theorem length_permutationRow (skip m x : UInt64) (k : ℕ) :
    (permutationRow skip m x k).length = k := by
  induction k generalizing x with
  | zero => rfl
  | succ k ih => simp only [permutationRow, List.length_cons, ih]

@[simp]
theorem length_writeRow (start : ℕ) (skip m : UInt64) (buf : List UInt64) (x : UInt64)
    (j k : ℕ) : (writeRow start skip m buf x j k).length = buf.length := by
  induction k generalizing buf x j with
  | zero => rfl
  | succ k ih => simp only [writeRow, ih, List.length_set]

/-- The row loop writes the row at `start + j` and leaves the rest of the buffer alone. -/
theorem writeRow_getElem? (start : ℕ) (skip m : UInt64) (buf : List UInt64) (x : UInt64)
    (j k t : ℕ) :
    (writeRow start skip m buf x j k)[t]? =
      if start + j ≤ t ∧ t < start + j + k ∧ t < buf.length then
        (permutationRow skip m x k)[t - (start + j)]?
      else buf[t]? := by
  induction k generalizing buf x j with
  | zero =>
    rw [if_neg (by omega)]
    rfl
  | succ k ih =>
    rw [writeRow, ih, List.length_set]
    by_cases hhead : t = start + j
    · -- the entry of this iteration
      subst hhead
      rw [if_neg (by omega), List.getElem?_set, if_pos rfl, Nat.sub_self]
      by_cases hlen : start + j < buf.length
      · have hc : start + j ≤ start + j ∧ start + j < start + j + (k + 1) ∧
            start + j < buf.length := ⟨le_refl _, by omega, hlen⟩
        rw [if_pos hlen, if_pos hc, permutationRow, List.getElem?_cons_zero]
      · rw [if_neg hlen, if_neg (by omega), List.getElem?_eq_none (by omega)]
    · rw [List.getElem?_set_ne (Ne.symm hhead)]
      by_cases hin : start + j < t ∧ t < start + j + (k + 1) ∧ t < buf.length
      · rw [if_pos (by omega), if_pos (by omega), permutationRow,
          show t - (start + j) = t - (start + (j + 1)) + 1 by omega, List.getElem?_cons_succ]
      · rw [if_neg (by omega), if_neg (by omega)]

theorem permutationRow_getElem?_toNat {m : ℕ} (hm : m < 2 ^ 63) {skip : UInt64}
    (hskip : skip.toNat < m) :
    ∀ {x : UInt64} {k j : ℕ}, x.toNat < m → j < k →
      (permutationRow skip m.toUInt64 x k)[j]?.map UInt64.toNat =
        some (Stride.term m x.toNat skip.toNat j)
  | x, k + 1, 0, hx, _ => by
    rw [permutationRow, List.getElem?_cons_zero, Option.map_some, Stride.term, Nat.zero_mul,
      Nat.add_zero, Nat.mod_eq_of_lt hx]
  | x, k + 1, j + 1, hx, hj => by
    have hm64 : m.toUInt64.toNat = m := by
      rw [Nat.toUInt64_eq, UInt64.toNat_ofNat', Nat.mod_eq_of_lt (by omega)]
    -- the next entry is `(x + skip) % m` without a wrap of the sum
    have hnext : ((x + skip) % m.toUInt64).toNat = (x.toNat + skip.toNat) % m := by
      rw [UInt64.toNat_mod, UInt64.toNat_add, hm64,
        Nat.mod_eq_of_lt (show x.toNat + skip.toNat < 2 ^ 64 by omega)]
    have hlt : ((x + skip) % m.toUInt64).toNat < m := by
      rw [hnext]
      exact Nat.mod_lt _ (by omega)
    rw [permutationRow, List.getElem?_cons_succ,
      permutationRow_getElem?_toNat hm hskip hlt (by omega), hnext, Stride.term_start_succ]

/-! ### The rows laid end to end -/

section Hash

variable (hash128 : List UInt8 → UInt32 → UInt64 × UInt64)

@[simp]
theorem length_backendRow (cfg : Config) (b : BackendInfo) :
    (backendRow hash128 cfg b).length = cfg.TableSize :=
  length_permutationRow _ _ _ _

theorem length_permutationRows (cfg : Config) (backends : List BackendInfo) :
    (permutationRows hash128 cfg backends).length = backends.length * cfg.TableSize := by
  induction backends with
  | nil => simp [permutationRows]
  | cons b bs ih =>
    simp only [permutationRows, List.map_cons, List.flatten_cons, List.length_append,
      length_backendRow] at ih ⊢
    rw [ih, List.length_cons, Nat.succ_mul, Nat.add_comm]

/-- Entry `j` of row `i` stands at `i * m + j`. -/
theorem permutationRows_getElem? (cfg : Config) {j : ℕ} (hj : j < cfg.TableSize) :
    ∀ (backends : List BackendInfo) (i : ℕ),
      (permutationRows hash128 cfg backends)[i * cfg.TableSize + j]? =
        backends[i]?.bind fun b => (backendRow hash128 cfg b)[j]?
  | [], _ => by simp [permutationRows]
  | b :: bs, 0 => by
    simp only [permutationRows, List.map_cons, List.flatten_cons, Nat.zero_mul, Nat.zero_add]
    rw [List.getElem?_append_left (by simpa using hj)]
    rfl
  | b :: bs, i + 1 => by
    simp only [permutationRows, List.map_cons, List.flatten_cons]
    rw [List.getElem?_append_right (by simp only [length_backendRow, Nat.succ_mul]; omega),
      length_backendRow, show (i + 1) * cfg.TableSize + j - cfg.TableSize =
        i * cfg.TableSize + j by rw [Nat.succ_mul]; omega]
    exact permutationRows_getElem? cfg hj bs i

@[simp]
theorem length_writeBackendRow (cfg : Config) (backends : List BackendInfo) (buf : List UInt64)
    (i : ℕ) : (writeBackendRow hash128 cfg backends buf i).length = buf.length := by
  unfold writeBackendRow
  split
  · exact length_writeRow _ _ _ _ _ _ _
  · rfl

/-- A goroutine's write of backend `i` sets exactly the `m` entries of row `i`. -/
theorem writeBackendRow_getElem? (cfg : Config) {backends : List BackendInfo}
    {buf : List UInt64} (hlen : backends.length * cfg.TableSize ≤ buf.length) {i : ℕ}
    (hi : i < backends.length) (t : ℕ) :
    (writeBackendRow hash128 cfg backends buf i)[t]? =
      if t / cfg.TableSize = i ∧ t < backends.length * cfg.TableSize then
        (permutationRows hash128 cfg backends)[t]?
      else buf[t]? := by
  obtain ⟨b, hb⟩ : ∃ b, backends[i]? = some b := ⟨backends[i], List.getElem?_eq_getElem hi⟩
  rw [writeBackendRow, hb]
  dsimp only
  rw [writeRow_getElem?, Nat.add_zero]
  by_cases hrow : i * cfg.TableSize ≤ t ∧ t < i * cfg.TableSize + cfg.TableSize
  · have hm : 0 < cfg.TableSize := by omega
    have hdiv : t / cfg.TableSize = i :=
      Nat.div_eq_of_lt_le hrow.1 (by rw [Nat.succ_mul]; exact hrow.2)
    have hlt : t < backends.length * cfg.TableSize :=
      Nat.lt_of_lt_of_le hrow.2 (by rw [← Nat.succ_mul]; exact Nat.mul_le_mul_right _ hi)
    rw [if_pos ⟨hrow.1, hrow.2, by omega⟩, if_pos ⟨hdiv, hlt⟩,
      show t = i * cfg.TableSize + (t - i * cfg.TableSize) by omega,
      permutationRows_getElem? hash128 cfg (by omega), hb, Option.bind_some]
    congr 1
    omega
  · rw [if_neg (fun h => hrow ⟨h.1, h.2.1⟩), if_neg]
    rintro ⟨hdiv, hlt⟩
    have hm : 0 < cfg.TableSize :=
      Nat.pos_of_ne_zero fun h => by rw [h, Nat.mul_zero] at hlt; omega
    apply hrow
    subst hdiv
    exact ⟨Nat.div_mul_le_self t _, by have := Nat.lt_div_mul_add (a := t) hm; omega⟩

/-- Writing the rows of the backends in `I` sets the entries of exactly those rows. -/
theorem foldl_writeBackendRow_getElem? (cfg : Config) {backends : List BackendInfo} :
    ∀ (I : List ℕ) {buf : List UInt64}, backends.length * cfg.TableSize ≤ buf.length →
      (∀ i ∈ I, i < backends.length) → ∀ t,
      (I.foldl (writeBackendRow hash128 cfg backends) buf)[t]? =
        if t / cfg.TableSize ∈ I ∧ t < backends.length * cfg.TableSize then
          (permutationRows hash128 cfg backends)[t]?
        else buf[t]?
  | [], _, _, _, t => by simp
  | i :: I, buf, hlen, hI, t => by
    have hlen' : backends.length * cfg.TableSize ≤
        (writeBackendRow hash128 cfg backends buf i).length := by
      rw [length_writeBackendRow]
      exact hlen
    rw [List.foldl_cons,
      foldl_writeBackendRow_getElem? cfg I hlen' (fun j hj => hI j (List.mem_cons_of_mem i hj)),
      writeBackendRow_getElem? hash128 cfg hlen (hI i List.mem_cons_self)]
    by_cases hin : t / cfg.TableSize ∈ I ∧ t < backends.length * cfg.TableSize
    · rw [if_pos hin, if_pos ⟨List.mem_cons_of_mem i hin.1, hin.2⟩]
    · rw [if_neg hin]
      by_cases hhead : t / cfg.TableSize = i ∧ t < backends.length * cfg.TableSize
      · rw [if_pos hhead, if_pos ⟨hhead.1 ▸ List.mem_cons_self, hhead.2⟩]
      · rw [if_neg hhead, if_neg]
        rintro ⟨hmem, hlt⟩
        rcases List.mem_cons.mp hmem with h | h
        · exact hhead ⟨h, hlt⟩
        · exact hin ⟨h, hlt⟩

theorem length_foldl_writeBackendRow (cfg : Config) (backends : List BackendInfo) :
    ∀ (I : List ℕ) (buf : List UInt64),
      (I.foldl (writeBackendRow hash128 cfg backends) buf).length = buf.length
  | [], _ => rfl
  | i :: I, buf => by
    rw [List.foldl_cons, length_foldl_writeBackendRow cfg backends I, length_writeBackendRow]

end Hash

/-- The batches from `g` cover the backends from `g` on, and no others. -/
theorem mem_batchLoop_indices {bCount batchSize : ℕ} (hbs : 0 < batchSize) (g i : ℕ) :
    i ∈ (batchLoop bCount batchSize g).flatMap (fun p => List.range' p.1 (p.2 - p.1)) ↔
      g ≤ i ∧ i < bCount := by
  fun_induction batchLoop bCount batchSize g with
  | case1 g hg ih =>
    rw [List.flatMap_cons, List.mem_append, ih, List.mem_range'_1]
    omega
  | case2 g hg =>
    rw [List.flatMap_nil]
    simp only [List.not_mem_nil, false_iff]
    omega

section Hash

variable (hash128 : List UInt8 → UInt32 → UInt64 × UInt64)

/-- The slice getPermutation returns is the rows of all backends laid end to end, whatever the
number of CPUs and whatever the reused buffer held. -/
theorem getPermutation_eq_rows (cfg : Config) (permutations : List UInt64)
    (backends : List BackendInfo) (numCPU : ℕ) :
    (getPermutation hash128 cfg permutations backends numCPU).2 =
      permutationRows hash128 cfg backends := by
  unfold getPermutation
  by_cases hnil : backends = []
  · subst hnil
    rfl
  rw [if_neg hnil]
  dsimp only
  have hl : 0 < backends.length := List.length_pos_iff.mpr hnil
  -- the buffer is long enough for every row
  generalize hbuf : (if backends.length * cfg.TableSize > permutations.length then
      List.replicate (max (derivePermutationSliceLen cfg.TableSize)
        (backends.length * cfg.TableSize)) 0
    else permutations) = buf
  have hlen : backends.length * cfg.TableSize ≤ buf.length := by
    rw [← hbuf]
    split
    · rw [List.length_replicate]
      exact Nat.le_max_right _ _
    · omega
  have hbs : 0 < if backends.length / numCPU = 0 then backends.length
      else backends.length / numCPU := by
    split
    · exact hl
    · exact Nat.pos_of_ne_zero ‹_›
  generalize (if backends.length / numCPU = 0 then backends.length
      else backends.length / numCPU) = batchSize at hbs
  -- the goroutines, run one after the other, write the rows of all backends
  have hfold : (batchLoop backends.length batchSize 0).foldl
      (fun buf lohi => writeBatch hash128 cfg backends buf lohi.1 lohi.2) buf =
      ((batchLoop backends.length batchSize 0).flatMap
        (fun p => List.range' p.1 (p.2 - p.1))).foldl (writeBackendRow hash128 cfg backends) buf := by
    rw [List.foldl_flatMap]
    rfl
  rw [hfold]
  apply List.ext_getElem?
  intro t
  have hmem : ∀ i ∈ (batchLoop backends.length batchSize 0).flatMap
      (fun p => List.range' p.1 (p.2 - p.1)), i < backends.length :=
    fun i hi => ((mem_batchLoop_indices hbs 0 i).mp hi).2
  rw [List.getElem?_take, foldl_writeBackendRow_getElem? hash128 cfg _ hlen hmem]
  by_cases ht : t < backends.length * cfg.TableSize
  · have hrow : t / cfg.TableSize < backends.length :=
      Nat.div_lt_of_lt_mul (by rw [Nat.mul_comm]; exact ht)
    rw [if_pos ht, if_pos ⟨(mem_batchLoop_indices hbs 0 _).mpr ⟨Nat.zero_le _, hrow⟩, ht⟩]
  · rw [if_neg ht, List.getElem?_eq_none (by rw [length_permutationRows]; omega)]

end Hash

/-! ### The rows as strides -/

theorem toNat_toUInt64_of_lt {m : ℕ} (hm : m < 2 ^ 64) : m.toUInt64.toNat = m := by
  rw [Nat.toUInt64_eq, UInt64.toNat_ofNat', Nat.mod_eq_of_lt hm]

/-- The offset of a backend's row, below `m`. -/
theorem offset_toNat_lt {m : ℕ} (hm : 0 < m) (hm64 : m < 2 ^ 64) (h : UInt64 × UInt64)
    (addr : List UInt8) (seed : UInt32) :
    (getOffsetAndSkip (fun _ _ => h) addr m.toUInt64 seed).1.toNat < m := by
  rw [getOffsetAndSkip, UInt64.toNat_mod, toNat_toUInt64_of_lt hm64]
  exact Nat.mod_lt _ hm

/-- The skip of a backend's row, between `1` and `m - 1`. -/
theorem skip_toNat_mem {m : ℕ} (hm : 2 ≤ m) (hm64 : m < 2 ^ 64) (h : UInt64 × UInt64)
    (addr : List UInt8) (seed : UInt32) :
    0 < (getOffsetAndSkip (fun _ _ => h) addr m.toUInt64 seed).2.toNat ∧
      (getOffsetAndSkip (fun _ _ => h) addr m.toUInt64 seed).2.toNat < m := by
  have hsub : (m.toUInt64 - 1).toNat = m - 1 := by
    have hle : (1 : UInt64) ≤ m.toUInt64 := by
      rw [UInt64.le_iff_toNat_le, toNat_toUInt64_of_lt hm64, UInt64.toNat_one]
      omega
    rw [UInt64.toNat_sub_of_le _ _ hle, toNat_toUInt64_of_lt hm64, UInt64.toNat_one]
  have hmod : h.2.toNat % (m - 1) < m - 1 := Nat.mod_lt _ (by omega)
  rw [getOffsetAndSkip, UInt64.toNat_add, UInt64.toNat_mod, hsub, UInt64.toNat_one,
    Nat.mod_eq_of_lt (by omega)]
  omega

section Hash

variable (hash128 : List UInt8 → UInt32 → UInt64 × UInt64)

/-- The offset of backend `b`'s row, as a number. -/
def rowOffset (cfg : Config) (b : BackendInfo) : ℕ := (offsetAndSkip hash128 cfg b).1.toNat

/-- The skip of backend `b`'s row, as a number. -/
def rowSkip (cfg : Config) (b : BackendInfo) : ℕ := (offsetAndSkip hash128 cfg b).2.toNat

theorem rowOffset_lt (cfg : Config) (hm : 0 < cfg.TableSize) (hm64 : cfg.TableSize < 2 ^ 64)
    (b : BackendInfo) : rowOffset hash128 cfg b < cfg.TableSize :=
  offset_toNat_lt hm hm64 (hash128 b.hashString.toUTF8.toList cfg.SeedMurmur)
    b.hashString.toUTF8.toList cfg.SeedMurmur

/-- For a prime table size the skip is a unit modulo `m`: the row visits every slot. -/
theorem rowSkip_coprime (cfg : Config) (hp : Nat.Prime cfg.TableSize)
    (hm64 : cfg.TableSize < 2 ^ 64) (b : BackendInfo) :
    Nat.Coprime (rowSkip hash128 cfg b) cfg.TableSize :=
  have hskip := skip_toNat_mem hp.two_le hm64 (hash128 b.hashString.toUTF8.toList cfg.SeedMurmur)
    b.hashString.toUTF8.toList cfg.SeedMurmur
  Nat.Coprime.symm (Nat.coprime_of_lt_prime (Nat.pos_iff_ne_zero.mp hskip.1) hskip.2 hp)

/-- Entry `j` of row `i` of the slice getPermutation returns is the `j`-th term of the stride of
backend `i`. -/
theorem getPermutation_getElem?_toNat (cfg : Config) (hm2 : 2 ≤ cfg.TableSize)
    (hm : cfg.TableSize < 2 ^ 63) (permutations : List UInt64) {backends : List BackendInfo}
    (numCPU : ℕ) {i : ℕ} {b : BackendInfo} (hb : backends[i]? = some b) {j : ℕ}
    (hj : j < cfg.TableSize) :
    ((getPermutation hash128 cfg permutations backends numCPU).2[i * cfg.TableSize + j]?).map
        UInt64.toNat =
      some (Stride.term cfg.TableSize (rowOffset hash128 cfg b) (rowSkip hash128 cfg b) j) := by
  have hskip := skip_toNat_mem hm2 (by omega) (hash128 b.hashString.toUTF8.toList cfg.SeedMurmur)
    b.hashString.toUTF8.toList cfg.SeedMurmur
  rw [getPermutation_eq_rows, permutationRows_getElem? hash128 cfg hj, hb, Option.bind_some,
    backendRow]
  exact permutationRow_getElem?_toNat hm hskip.2 (rowOffset_lt hash128 cfg (by omega) (by omega) b) hj

end Hash

end Cilium.Maglev
