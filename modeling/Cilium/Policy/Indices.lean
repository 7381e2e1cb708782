import Cilium.Policy.Insert
import Cilium.Bitlpm.Bounded
import Cilium.Bitlpm.Unsigned

/-! The indices of the policy map state (`pkg/policy/mapstate.go`): the bit-LPM trie from the
`LPMKey` of every key to the set of identities it has entries for, and the identity index
`byId`.  `LPMKey.CommonPrefix` counts the 25 bits of the direction, the protocol and the port and
no more, although the trie's maximum prefix is 32: it meets the trie's contract at 25 bits only,
and the keys that the map state is given, whose prefixes stay within 25 bits, get the
refinement of the trie through `RefinesBelow`.  A normalized key, as `Key`'s constructors make
it, has a slot of its own in the trie.

Every change that `mapState` makes to its entries goes through `upsert`, `delete` or
`updateExisting` of a key it holds: `IndexStep` is that relation, and the invariant of the
indices holds along any sequence of such steps. -/

namespace Cilium.Policy
open Cilium.Policy.Types Cilium.Bitlpm

/-! ### The bits of the trie's keys -/

theorem bit_direction (x : UInt8) : (x >>> 7 == 1) = x.toNat.testBit 7 := by
  have hx : x.toNat < 256 := x.toNat_lt
  have h7 : (7 : UInt8).toNat % 8 = 7 := rfl
  apply Bool.eq_iff_iff.mpr
  simp only [beq_iff_eq, ← UInt8.toNat_inj, UInt8.toNat_shiftRight, h7, UInt8.toNat_one,
    Nat.shiftRight_eq_div_pow, Nat.testBit_eq_decide_div_mod_eq, decide_eq_true_eq, Nat.reducePow]
  omega

theorem bit_nexthdr (x : UInt8) {i : Nat} (h1 : 1 ≤ i) (h8 : i ≤ 8) :
    ((x >>> (8 - i).toUInt8) &&& 1 == 1) = x.toNat.testBit (8 - i) := by
  have hs : ((8 - i).toUInt8).toNat % 8 = 8 - i := by
    simp [Nat.toUInt8]
    omega
  apply Bool.eq_iff_iff.mpr
  simp only [beq_iff_eq, ← UInt8.toNat_inj, UInt8.toNat_and, UInt8.toNat_shiftRight, hs,
    UInt8.toNat_one, Nat.and_one_is_mod, Nat.shiftRight_eq_div_pow,
    Nat.testBit_eq_decide_div_mod_eq, decide_eq_true_eq]

theorem bit_port (x : UInt16) (n : Nat) : (shr16 x n &&& 1 == 1) = x.toNat.testBit n := by
  have hs : (shr16 x n).toNat = x.toNat >>> n := BitVec.toNat_ushiftRight _ _
  apply Bool.eq_iff_iff.mpr
  simp only [beq_iff_eq, ← UInt16.toNat_inj, UInt16.toNat_and, hs, UInt16.toNat_one,
    Nat.and_one_is_mod, Nat.shiftRight_eq_div_pow, Nat.testBit_eq_decide_div_mod_eq,
    decide_eq_true_eq]

namespace Types

namespace LPMKey


/-- The direction bit, bit `j` of the protocol and bit `j` of the port, most significant first. -/
def dirBit (k : LPMKey) : Bool := k.bits.toNat.testBit 7
def protoBit (k : LPMKey) (j : Nat) : Bool := k.nexthdr.toNat.testBit (7 - j)
def portBit (k : LPMKey) (j : Nat) : Bool := k.destPort.toNat.testBit (15 - j)

theorem bitValueAt_eq (k : LPMKey) (i : Nat) :
    Key.bitValueAt k i = if i = 0 then k.dirBit else if i < 9 then k.protoBit (i - 1)
      else if i ≤ 24 then k.portBit (i - 9) else false := by
  change (if i = 0 then k.bits >>> 7 == 1 else if i < 9 then (k.nexthdr >>> (8 - i).toUInt8) &&& 1 == 1
    else if i ≤ 24 then (shr16 k.destPort (24 - i)) &&& 1 == 1 else false) = _
  split
  · exact bit_direction _
  · split
    · next h0 h9 =>
      rw [bit_nexthdr _ (by omega) (by omega), protoBit, show 7 - (i - 1) = 8 - i by omega]
    · split
      · next h24 => rw [bit_port, portBit, show 15 - (i - 9) = 24 - i by omega]
      · rfl

theorem xor_shift7_ne_zero (x y : UInt8) :
    ((x ^^^ y) >>> 7 != 0) = true ↔ x.toNat.testBit 7 ≠ y.toNat.testBit 7 := by
  have hxy : (x ^^^ y).toNat < 256 := (x ^^^ y).toNat_lt
  have h : ((x ^^^ y) >>> 7).toNat = (x ^^^ y).toNat >>> 7 := by simp [UInt8.toNat_shiftRight]
  have hb : ((x ^^^ y).toNat >>> 7 ≠ 0) ↔ (x ^^^ y).toNat.testBit 7 = true := by
    simp only [Nat.testBit_eq_decide_div_mod_eq, decide_eq_true_iff, Nat.shiftRight_eq_div_pow,
      Nat.reducePow]
    omega
  rw [UInt8.toNat_xor, Nat.testBit_xor] at hb
  rw [bne_iff_ne, ne_eq, ← UInt8.toNat_inj, h, UInt8.toNat_zero, ← ne_eq, UInt8.toNat_xor, hb]
  cases x.toNat.testBit 7 <;> cases y.toNat.testBit 7 <;> decide

theorem le_leadingZeros8_iff (x y : UInt8) {n : Nat} (hn : n ≤ 8) :
    n ≤ leadingZeros8 (x ^^^ y) ↔ ∀ j < n, x.toNat.testBit (7 - j) = y.toNat.testBit (7 - j) := by
  unfold leadingZeros8
  rw [le_clz_iff _ hn]
  refine forall_congr' fun j => imp_congr_right fun _ => ?_
  change (x ^^^ y).toNat.testBit (8 - 1 - j) = false ↔ _
  rw [UInt8.toNat_xor, Nat.testBit_xor]
  cases x.toNat.testBit (7 - j) <;> cases y.toNat.testBit (7 - j) <;> simp

theorem le_leadingZeros16_iff (x y : UInt16) {n : Nat} (hn : n ≤ 16) :
    n ≤ leadingZeros16 (x ^^^ y) ↔ ∀ j < n, x.toNat.testBit (15 - j) = y.toNat.testBit (15 - j) := by
  unfold leadingZeros16
  rw [le_clz_iff _ hn]
  refine forall_congr' fun j => imp_congr_right fun _ => ?_
  change (x ^^^ y).toNat.testBit (16 - 1 - j) = false ↔ _
  rw [UInt16.toNat_xor, Nat.testBit_xor]
  cases x.toNat.testBit (15 - j) <;> cases y.toNat.testBit (15 - j) <;> simp


/-- The bits field holds the direction in its top bit and the port prefix below it. -/
theorem bits_eq_of {a b : LPMKey} (hd : a.dirBit = b.dirBit)
    (hp : a.portPrefixLen = b.portPrefixLen) : a.bits = b.bits := by
  have hmod : ∀ x : UInt8, (x &&& ~~~directionBitMask).toNat = x.toNat % 128 := by
    intro x
    rw [UInt8.toNat_and]
    have : (~~~directionBitMask).toNat = 127 := by decide
    rw [this, show (127 : Nat) = 2 ^ 7 - 1 from rfl, Nat.and_two_pow_sub_one_eq_mod]
  have hbit : ∀ x : UInt8, x.toNat.testBit 7 = decide (x.toNat / 128 % 2 = 1) := by
    intro x
    rw [Nat.testBit_eq_decide_div_mod_eq]
  have hpa := congrArg UInt8.toNat hp
  unfold portPrefixLen at hpa
  rw [hmod, hmod] at hpa
  unfold dirBit at hd
  rw [hbit, hbit] at hd
  have hxa := a.bits.toNat_lt
  have hxb := b.bits.toNat_lt
  apply UInt8.toNat_inj.mp
  simp only [decide_eq_decide] at hd
  omega


theorem testBit_shl16_mask (s : Nat) {i : Nat} (hi : i < 16) :
    (shl16 0xffff s).toNat.testBit i = decide (s ≤ i) := by
  have h : (shl16 0xffff s).toNat = (65535 <<< s) % 2 ^ 16 := BitVec.toNat_shiftLeft
  rw [h, Nat.testBit_mod_two_pow, Nat.testBit_shiftLeft, show (65535 : Nat) = 2 ^ 16 - 1 from rfl,
    Nat.testBit_two_pow_sub_one]
  by_cases hs : s ≤ i
  · simp [hs, hi]
    omega
  · simp [hs]

/-- A port masked to a prefix has its bits below the prefix clear. -/
theorem testBit_of_masked {x : UInt16} {s : Nat} (h : x &&& shl16 0xffff s = x) {i : Nat}
    (hi : i < s) (hi16 : i < 16) : x.toNat.testBit i = false := by
  have hb := congrArg (fun y : UInt16 => y.toNat.testBit i) h
  simp only [UInt16.toNat_and, Nat.testBit_and, testBit_shl16_mask s hi16] at hb
  rw [← hb]
  simp [show ¬s ≤ i by omega]

theorem eq_of_testBit_lt {w : Nat} {m n : Nat} (hm : m < 2 ^ w) (hn : n < 2 ^ w)
    (h : ∀ i < w, m.testBit i = n.testBit i) : m = n := by
  apply Nat.eq_of_testBit_eq
  intro i
  by_cases hi : i < w
  · exact h i hi
  · have hw : 2 ^ w ≤ 2 ^ i := Nat.pow_le_pow_right (by omega) (by omega)
    rw [Nat.testBit_eq_false_of_lt (by omega), Nat.testBit_eq_false_of_lt (by omega)]

theorem commonPrefix_eq (k b : LPMKey) :
    Key.commonPrefix k b = if k.dirBit ≠ b.dirBit then 0
      else if leadingZeros8 (k.nexthdr ^^^ b.nexthdr) < 8 then
        1 + leadingZeros8 (k.nexthdr ^^^ b.nexthdr)
      else 9 + leadingZeros16 (k.destPort ^^^ b.destPort) := by
  change (if (k.bits ^^^ b.bits) >>> 7 != 0 then 0 else
    if 1 + leadingZeros8 (k.nexthdr ^^^ b.nexthdr) < 9 then
      1 + leadingZeros8 (k.nexthdr ^^^ b.nexthdr)
    else 1 + leadingZeros8 (k.nexthdr ^^^ b.nexthdr) + leadingZeros16 (k.destPort ^^^ b.destPort)) = _
  have h8 : leadingZeros8 (k.nexthdr ^^^ b.nexthdr) ≤ 8 := clz_toNat_le _
  by_cases hd : k.dirBit ≠ b.dirBit
  · rw [if_pos ((xor_shift7_ne_zero _ _).mpr hd), if_pos hd]
  · rw [if_neg (fun h => hd ((xor_shift7_ne_zero _ _).mp h)), if_neg hd]
    split <;> split <;> omega

end LPMKey

open LPMKey in
/-- The keys of the map state's trie meet the trie's contract up to 25 bits, the direction, the
protocol and the port: `CommonPrefix` counts no further, although the trie's maximum prefix is
32. -/
theorem lpmKey_contract : Contract LPMKey 25 where
  le_max a b := by
    have h8 : leadingZeros8 (a.nexthdr ^^^ b.nexthdr) ≤ 8 := clz_toNat_le _
    have h16 : leadingZeros16 (a.destPort ^^^ b.destPort) ≤ 16 := clz_toNat_le _
    rw [commonPrefix_eq]
    split
    · omega
    · split <;> omega
  le_iff a b n hn := by
    have h8 : leadingZeros8 (a.nexthdr ^^^ b.nexthdr) ≤ 8 := clz_toNat_le _
    have h16 : leadingZeros16 (a.destPort ^^^ b.destPort) ≤ 16 := clz_toNat_le _
    -- the protocol bits agree above their first difference, and so do the port bits
    have hp := (le_leadingZeros8_iff a.nexthdr b.nexthdr h8).mp le_rfl
    have hq := (le_leadingZeros16_iff a.destPort b.destPort h16).mp le_rfl
    unfold Agree
    simp only [bitValueAt_eq]
    rw [commonPrefix_eq]
    split
    · -- the directions differ at the first bit
      next hd =>
      constructor
      · intro h i hi
        omega
      · intro h
        by_contra hn0
        have h0 := h 0 (by omega)
        simp only [if_true] at h0
        exact hd h0
    · next hd =>
      have hdir : a.dirBit = b.dirBit := not_not.mp hd
      split
      · -- the protocols differ at the bit past their leading zeros
        next hlt =>
        constructor
        · intro h i hi
          split
          · exact hdir
          · split
            · exact hp _ (by omega)
            · omega
        · intro h
          by_contra hgt
          have hbit := h (1 + leadingZeros8 (a.nexthdr ^^^ b.nexthdr)) (by omega)
          simp only [show ¬(1 + leadingZeros8 (a.nexthdr ^^^ b.nexthdr) = 0) by omega,
            show 1 + leadingZeros8 (a.nexthdr ^^^ b.nexthdr) < 9 by omega, ↓reduceIte,
            Nat.add_sub_cancel_left] at hbit
          have hmore := (le_leadingZeros8_iff a.nexthdr b.nexthdr
            (n := leadingZeros8 (a.nexthdr ^^^ b.nexthdr) + 1) (by omega)).mpr fun j hj => by
              rcases Nat.lt_succ_iff_lt_or_eq.mp hj with hj | rfl
              · exact hp j hj
              · exact hbit
          omega
      · -- the protocols agree, and the ports differ past their leading zeros
        next hge =>
        have h8' : leadingZeros8 (a.nexthdr ^^^ b.nexthdr) = 8 := by omega
        constructor
        · intro h i hi
          split
          · exact hdir
          · split
            · exact hp _ (by omega)
            · split
              · exact hq _ (by omega)
              · rfl
        · intro h
          by_contra hgt
          have hbit := h (9 + leadingZeros16 (a.destPort ^^^ b.destPort)) (by omega)
          simp only [show ¬(9 + leadingZeros16 (a.destPort ^^^ b.destPort) = 0) by omega,
            show ¬(9 + leadingZeros16 (a.destPort ^^^ b.destPort) < 9) by omega,
            show 9 + leadingZeros16 (a.destPort ^^^ b.destPort) ≤ 24 by omega, ↓reduceIte,
            Nat.add_sub_cancel_left] at hbit
          have hmore := (le_leadingZeros16_iff a.destPort b.destPort
            (n := leadingZeros16 (a.destPort ^^^ b.destPort) + 1) (by omega)).mpr fun j hj => by
              rcases Nat.lt_succ_iff_lt_or_eq.mp hj with hj | rfl
              · exact hq j hj
              · exact hbit
          omega


namespace LPMKey

/-- A key as the constructors of `Key` make it: a port prefix of at most 16 bits, the port masked
to it, and neither port nor prefix without a protocol. -/
def Normalized (k : LPMKey) : Prop :=
  k.portPrefixLen ≤ 16 ∧ k.destPort &&& shl16 0xffff (16 - k.portPrefixLen.toNat) = k.destPort ∧
    (k.nexthdr = 0 → k.destPort = 0 ∧ k.portPrefixLen = 0)

instance (k : LPMKey) : Decidable k.Normalized := inferInstanceAs (Decidable (_ ∧ _ ∧ _))

theorem Normalized.prefixLength_le {k : LPMKey} (h : k.Normalized) : k.prefixLength ≤ 25 := by
  have hp : k.portPrefixLen.toNat ≤ 16 := h.1
  unfold prefixLength
  split <;> omega

/-- The slot of the map state's trie that an `LPMKey` is kept at. -/
def lpmSlot (k : LPMKey) : Slot := slot 25 k.prefixLength k

/-- Normalized keys have slots of their own. -/
theorem Normalized.eq_of_lpmSlot_eq {a b : LPMKey} (ha : a.Normalized) (hb : b.Normalized)
    (h : lpmSlot a = lpmSlot b) : a = b := by
  unfold lpmSlot slot at h
  rw [Nat.min_eq_left ha.prefixLength_le, Nat.min_eq_left hb.prefixLength_le] at h
  obtain ⟨hpl, hbits⟩ := Prod.mk.inj h
  rw [← hpl] at hbits
  have hag : Agree a b a.prefixLength := bitsOf_eq_iff.mp hbits
  have hpos : 0 < a.prefixLength := by
    unfold prefixLength
    split <;> omega
  have hdir : a.dirBit = b.dirBit := by
    simpa [bitValueAt_eq] using hag 0 hpos
  have hkey : a.bits = b.bits → a.nexthdr = b.nexthdr → a.destPort = b.destPort → a = b := by
    cases a
    cases b
    rintro rfl rfl rfl
    rfl
  by_cases hn : a.nexthdr = 0
  · -- without a protocol, both keys are the bare direction
    have hbn : b.nexthdr = 0 := by
      by_contra hbn
      simp only [prefixLength, hn, hbn, if_true, if_false] at hpl
      omega
    obtain ⟨hap, hapl⟩ := ha.2.2 hn
    obtain ⟨hbp, hbpl⟩ := hb.2.2 hbn
    exact hkey (bits_eq_of hdir (hapl.trans hbpl.symm)) (hn.trans hbn.symm) (hap.trans hbp.symm)
  · have hbn : b.nexthdr ≠ 0 := by
      intro hbn
      simp only [prefixLength, hn, hbn, if_true, if_false] at hpl
      omega
    have hppl : a.portPrefixLen = b.portPrefixLen := by
      simp only [prefixLength, hn, hbn, if_false] at hpl
      exact UInt8.toNat_inj.mp (by omega)
    have hla : a.prefixLength = 9 + a.portPrefixLen.toNat := by simp [prefixLength, hn]
    -- the protocol is bits 1 to 8 of the slot
    have hproto : a.nexthdr = b.nexthdr := by
      refine UInt8.toNat_inj.mp (eq_of_testBit_lt (w := 8) a.nexthdr.toNat_lt b.nexthdr.toNat_lt
        fun i hi => ?_)
      have hbit := hag (8 - i) (by omega)
      simp only [bitValueAt_eq, show ¬(8 - i = 0) by omega, show 8 - i < 9 by omega,
        ↓reduceIte] at hbit
      simpa [protoBit, show 7 - (8 - i - 1) = i by omega] using hbit
    -- the port is its prefix, bits 9 on of the slot, and zero below it
    have hport : a.destPort = b.destPort := by
      have hp16 : a.portPrefixLen.toNat ≤ 16 := ha.1
      refine UInt16.toNat_inj.mp (eq_of_testBit_lt (w := 16) a.destPort.toNat_lt
        b.destPort.toNat_lt fun i hi => ?_)
      by_cases hlow : i < 16 - a.portPrefixLen.toNat
      · rw [testBit_of_masked ha.2.1 hlow hi, testBit_of_masked hb.2.1 (by rw [← hppl]; exact hlow) hi]
      · have hbit := hag (24 - i) (by omega)
        simp only [bitValueAt_eq, show ¬(24 - i = 0) by omega, show ¬(24 - i < 9) by omega,
          show 24 - i ≤ 24 by omega, ↓reduceIte] at hbit
        simpa [portBit, show 15 - (24 - i - 9) = i by omega] using hbit
    exact hkey (bits_eq_of hdir hppl) hproto hport

end LPMKey

end Types

/-! ### The invariant of the indices -/

open Types.LPMKey

namespace mapState

theorem key_eq_iff {k k' : Key} : k' = k ↔ k'.toLPMKey = k.toLPMKey ∧ k'.identity = k.identity := by
  constructor
  · rintro rfl
    exact ⟨rfl, rfl⟩
  · rcases k with ⟨l, i⟩
    rcases k' with ⟨l', i'⟩
    rintro ⟨rfl, rfl⟩
    rfl

theorem mem_insert_of_mem {κ V : Type} [DecidableEq κ] {m : AList fun _ : κ => V} {k : κ}
    (hin : k ∈ m) (v : V) (k' : κ) : k' ∈ m.insert k v ↔ k' ∈ m := by
  rw [AList.mem_insert]
  constructor
  · rintro (rfl | h')
    · exact hin
    · exact h'
  · exact .inr

/-- One change of the entries as `mapState` makes them: `upsert` of a key whose `LPMKey`
satisfies `N`, `delete` of any key, and `updateExisting` of a key the map state holds. -/
inductive IndexStep (N : LPMKey → Prop) : mapState → mapState → Prop
  | upsert (ms : mapState) (k : Key) (e : mapStateEntry) (hk : N k.toLPMKey) :
      IndexStep N ms (ms.upsert k e)
  | delete (ms : mapState) (k : Key) : IndexStep N ms (ms.delete k)
  | updateExisting (ms : mapState) (k : Key) (v : mapStateEntry) (hin : k ∈ ms.entries) :
      IndexStep N ms (ms.updateExisting k v)

/-- Any number of such changes. -/
abbrev IndexSteps (N : LPMKey → Prop) : mapState → mapState → Prop :=
  Relation.ReflTransGen (IndexStep N)

/-- Every key of the map state has its `LPMKey` in `N`. -/
def AllKeys (N : LPMKey → Prop) (ms : mapState) : Prop := ∀ k ∈ ms.entries, N k.toLPMKey

theorem AllKeys.step {N : LPMKey → Prop} {ms ms' : mapState} (h : AllKeys N ms)
    (hs : IndexStep N ms ms') : AllKeys N ms' := by
  cases hs with
  | upsert k e hk =>
    intro k' hk'
    have hmem : k' = k ∨ k' ∈ ms.entries := by
      unfold mapState.upsert at hk'
      split at hk' <;> exact (AList.mem_insert _).mp hk'
    rcases hmem with rfl | hmem
    · exact hk
    · exact h k' hmem
  | delete k =>
    intro k' hk'
    unfold mapState.delete at hk'
    split at hk'
    · exact h k' (AList.mem_erase.mp hk').2
    · exact h k' hk'
  | updateExisting k v hin =>
    intro k' hk'
    exact h k' ((mem_insert_of_mem hin v k').mp hk')

theorem AllKeys.steps {N : LPMKey → Prop} {ms ms' : mapState} (h : AllKeys N ms)
    (hs : IndexSteps N ms ms') : AllKeys N ms' := by
  induction hs with
  | refl => exact h
  | tail _ step ih => exact ih.step step

/-- The indices of a map state agree with its entries: its keys are normalized; the trie is the
abstract map `a`, whose identity sets have no duplicates and are never empty, and which holds at
the slot of a normalized key exactly the identities of the entries with its `LPMKey`; and the
identity index, when in use, holds for each identity exactly the `LPMKey`s of its entries, with
no duplicates. -/
structure IndexedBy (ms : mapState) (a : AList fun _ : Slot => IDSet) : Prop where
  normalized : ∀ k ∈ ms.entries, k.toLPMKey.Normalized
  trie : RefinesBelow 25 mapStatePrefixLen ms.trie a
  idSets : ∀ s ids, a.lookup s = some ids → ids.Nodup ∧ ids ≠ []
  entries : ∀ k : Key, k.toLPMKey.Normalized →
    (k ∈ ms.entries ↔ k.identity ∈ (a.lookup (lpmSlot k.toLPMKey)).getD [])
  byId : ∀ byId, ms.byId = some byId →
    ∀ k : Key, k ∈ ms.entries ↔ k.toLPMKey ∈ (byId.lookup k.identity).getD []
  keySets : ∀ byId, ms.byId = some byId → ∀ id keys, byId.lookup id = some keys → keys.Nodup

/-- No key set of the identity index is empty. -/
def ByIdNonempty (ms : mapState) : Prop :=
  ∀ byId, ms.byId = some byId → ∀ id keys, byId.lookup id = some keys → keys ≠ []


/-- A list stored at a key, or the key dropped when the list is empty, as `delete` keeps its
sets. -/
theorem lookup_eraseOrInsert {κ V : Type} [DecidableEq κ] (m : AList fun _ : κ => List V) (key : κ)
    (l : List V) (c : κ) :
    (if l.length = 0 then m.erase key else m.insert key l).lookup c =
      if c = key then (if l.length = 0 then none else some l) else m.lookup c := by
  by_cases hc : c = key
  · subst hc
    split <;> simp [AList.lookup_erase, AList.lookup_insert]
  · split <;> simp [AList.lookup_erase_ne hc, AList.lookup_insert_ne hc]

theorem getD_lookup_eraseOrInsert {κ V : Type} [DecidableEq κ] (m : AList fun _ : κ => List V)
    (key : κ) (l : List V) :
    ((if l.length = 0 then m.erase key else m.insert key l).lookup key).getD [] = l := by
  rw [lookup_eraseOrInsert, if_pos rfl]
  split
  · next hc => exact (List.eq_nil_of_length_eq_zero hc).symm
  · rfl

namespace IndexedBy

variable {ms : mapState} {a : AList fun _ : Slot => IDSet}

/-- A map state with the same keys and the same indices is indexed the same. -/
theorem of_keys (h : ms.IndexedBy a) {ms' : mapState} (hk : ∀ k, k ∈ ms'.entries ↔ k ∈ ms.entries)
    (ht : ms'.trie = ms.trie) (hb : ms'.byId = ms.byId) : ms'.IndexedBy a where
  normalized k hin := h.normalized k ((hk k).mp hin)
  trie := ht ▸ h.trie
  idSets := h.idSets
  entries k hn := (hk k).trans (h.entries k hn)
  byId b hb' k := (hk k).trans (h.byId b (hb ▸ hb') k)
  keySets b hb' := h.keySets b (hb ▸ hb')

theorem nodup_ids (h : ms.IndexedBy a) (s : Slot) : ((a.lookup s).getD []).Nodup := by
  cases hl : a.lookup s with
  | none => exact List.nodup_nil
  | some ids => exact (h.idSets s ids hl).1

theorem nodup_keys (h : ms.IndexedBy a) {byId : AList fun _ : NumericIdentity => LPMKeys}
    (hb : ms.byId = some byId) (id : NumericIdentity) : ((byId.lookup id).getD []).Nodup := by
  cases hl : byId.lookup id with
  | none => exact List.nodup_nil
  | some keys => exact h.keySets byId hb id keys hl

/-- `upsert` of a new normalized key adds its identity at its slot and its `LPMKey` at its
identity. -/
theorem upsert (h : ms.IndexedBy a) {k : Key} (hk : k.toLPMKey.Normalized) (e : mapStateEntry) :
    ∃ a', (ms.upsert k e).IndexedBy a' := by
  unfold mapState.upsert
  dsimp only
  split
  · -- a key it holds: the keys stay the same
    next hin =>
    exact ⟨a, h.of_keys (fun k' => mem_insert_of_mem hin e k') rfl rfl⟩
  · next hnot =>
    have hex : ms.trie.exactLookup k.prefixLength k.toLPMKey = a.lookup (lpmSlot k.toLPMKey) :=
      h.trie.exactLookup lpmKey_contract hk.prefixLength_le _
    rw [hex]
    refine ⟨a.insert (lpmSlot k.toLPMKey)
      (((a.lookup (lpmSlot k.toLPMKey)).getD []).insert k.identity), ?_, ?_, ?_, ?_, ?_, ?_⟩
    · intro k' hk'
      rcases (AList.mem_insert _).mp hk' with rfl | hk'
      · exact hk
      · exact h.normalized k' hk'
    · exact h.trie.upsert lpmKey_contract hk.prefixLength_le _ _
    · intro s' ids' hl
      by_cases hs : s' = lpmSlot k.toLPMKey
      · subst hs
        rw [AList.lookup_insert] at hl
        cases hl
        exact ⟨(h.nodup_ids _).insert, List.ne_nil_of_mem List.mem_insert_self⟩
      · rw [AList.lookup_insert_ne hs] at hl
        exact h.idSets s' ids' hl
    · -- a key of the slot is the new key or an old one, and no other slot moves
      intro k' hk'
      rw [AList.mem_insert, h.entries k' hk']
      by_cases hs : lpmSlot k'.toLPMKey = lpmSlot k.toLPMKey
      · have hl : k'.toLPMKey = k.toLPMKey := hk'.eq_of_lpmSlot_eq hk hs
        rw [hs, AList.lookup_insert, Option.getD_some, List.mem_insert_iff, key_eq_iff]
        simp only [hl, true_and]
      · have hne : k' ≠ k := fun he => hs (by rw [he])
        rw [AList.lookup_insert_ne hs]
        simp [hne]
    · intro b hb k'
      obtain ⟨byId, hbyId, rfl⟩ := Option.map_eq_some_iff.mp hb
      rw [AList.mem_insert, h.byId byId hbyId k']
      by_cases hid : k'.identity = k.identity
      · rw [hid, AList.lookup_insert, Option.getD_some, List.mem_insert_iff, key_eq_iff]
        simp only [hid, and_true]
      · have hne : k' ≠ k := fun he => hid (by rw [he])
        rw [AList.lookup_insert_ne hid]
        simp [hne]
    · intro b hb id keys hl
      obtain ⟨byId, hbyId, rfl⟩ := Option.map_eq_some_iff.mp hb
      by_cases hid : id = k.identity
      · subst hid
        rw [AList.lookup_insert] at hl
        cases hl
        exact (h.nodup_keys hbyId _).insert
      · rw [AList.lookup_insert_ne hid] at hl
        exact h.keySets byId hbyId id keys hl

/-- The slot of a key it holds has a set with the key's identity in it. -/
theorem lookup_of_mem (h : ms.IndexedBy a) {k : Key} (hin : k ∈ ms.entries) :
    ∃ ids, a.lookup (lpmSlot k.toLPMKey) = some ids ∧ k.identity ∈ ids := by
  have hmem := (h.entries k (h.normalized k hin)).mp hin
  cases hl : a.lookup (lpmSlot k.toLPMKey) with
  | none => simp [hl] at hmem
  | some ids => exact ⟨ids, rfl, by simpa [hl] using hmem⟩

/-- ... and its identity has a key set with the key's `LPMKey` in it. -/
theorem lookup_byId_of_mem (h : ms.IndexedBy a) {byId : AList fun _ : NumericIdentity => LPMKeys}
    (hb : ms.byId = some byId) {k : Key} (hin : k ∈ ms.entries) :
    ∃ keys, byId.lookup k.identity = some keys ∧ k.toLPMKey ∈ keys := by
  have hmem := (h.byId byId hb k).mp hin
  cases hl : byId.lookup k.identity with
  | none => simp [hl] at hmem
  | some keys => exact ⟨keys, rfl, by simpa [hl] using hmem⟩

/-- `delete` of a key it holds takes its identity out of its slot and its `LPMKey` out of its
identity, and drops a set that empties. -/
theorem delete (h : ms.IndexedBy a) (k : Key) : ∃ a', (ms.delete k).IndexedBy a' := by
  unfold mapState.delete
  split
  · next hin =>
    have hk := h.normalized k hin
    obtain ⟨ids, hl, hid⟩ := h.lookup_of_mem hin
    have hnd := (h.idSets _ ids hl).1
    have hex : ms.trie.exactLookup k.prefixLength k.toLPMKey = some ids :=
      (h.trie.exactLookup lpmKey_contract hk.prefixLength_le _).trans hl
    simp only [hex]
    -- the slot keeps the other identities of its set, and is dropped when none is left
    let a' := if (ids.erase k.identity).length = 0 then a.erase (lpmSlot k.toLPMKey)
      else a.insert (lpmSlot k.toLPMKey) (ids.erase k.identity)
    refine ⟨a', fun k' hk' => h.normalized k' (AList.mem_erase.mp hk').2, ?_, ?_, ?_, ?_, ?_⟩
    · by_cases hc : (ids.erase k.identity).length = 0
      · simp only [a', hc, if_true]
        exact h.trie.delete lpmKey_contract hk.prefixLength_le _
      · simp only [a', hc, if_false]
        exact h.trie.upsert lpmKey_contract hk.prefixLength_le _ _
    · intro s' ids' hl'
      rw [lookup_eraseOrInsert] at hl'
      split at hl'
      · split at hl'
        · cases hl'
        · next hc =>
          cases hl'
          exact ⟨hnd.erase _, fun he => hc (by rw [he]; rfl)⟩
      · exact h.idSets s' ids' hl'
    · intro k' hk'
      rw [AList.mem_erase, h.entries k' hk']
      by_cases hs : lpmSlot k'.toLPMKey = lpmSlot k.toLPMKey
      · have hlpm : k'.toLPMKey = k.toLPMKey := hk'.eq_of_lpmSlot_eq hk hs
        rw [hs, getD_lookup_eraseOrInsert, hl, Option.getD_some, hnd.mem_erase_iff, ne_eq,
          key_eq_iff]
        simp only [hlpm, true_and]
      · have hne : k' ≠ k := fun he => hs (by rw [he])
        rw [lookup_eraseOrInsert, if_neg hs]
        simp [hne]
    · intro b hb k'
      obtain ⟨byId, hbyId, rfl⟩ := Option.map_eq_some_iff.mp hb
      obtain ⟨keys, hkl, hkm⟩ := h.lookup_byId_of_mem hbyId hin
      have hknd : keys.Nodup := h.keySets byId hbyId _ keys hkl
      simp only [hkl]
      rw [AList.mem_erase, h.byId byId hbyId k']
      by_cases hid : k'.identity = k.identity
      · rw [hid, getD_lookup_eraseOrInsert, hkl, Option.getD_some, hknd.mem_erase_iff, ne_eq,
          key_eq_iff]
        simp only [hid, and_true]
      · have hne : k' ≠ k := fun he => hid (by rw [he])
        rw [lookup_eraseOrInsert, if_neg hid]
        simp [hne]
    · intro b hb id keys' hl'
      obtain ⟨byId, hbyId, rfl⟩ := Option.map_eq_some_iff.mp hb
      obtain ⟨keys, hkl, -⟩ := h.lookup_byId_of_mem hbyId hin
      have hknd : keys.Nodup := h.keySets byId hbyId _ keys hkl
      simp only [hkl] at hl'
      rw [lookup_eraseOrInsert] at hl'
      split at hl'
      · split at hl'
        · cases hl'
        · cases hl'
          exact hknd.erase _
      · exact h.keySets byId hbyId id keys' hl'
  · exact ⟨a, h⟩

theorem updateExisting (h : ms.IndexedBy a) {k : Key} (hin : k ∈ ms.entries) (v : mapStateEntry) :
    (ms.updateExisting k v).IndexedBy a :=
  h.of_keys (fun k' => mem_insert_of_mem hin v k') rfl rfl

/-- Every step of the entries keeps the indices in agreement with them. -/
theorem step (h : ms.IndexedBy a) {ms' : mapState} (hs : IndexStep Normalized ms ms') :
    ∃ a', ms'.IndexedBy a' := by
  cases hs with
  | upsert k e hk => exact h.upsert hk e
  | delete k => exact h.delete k
  | updateExisting k v hin => exact ⟨a, h.updateExisting hin v⟩

end IndexedBy

/-- ... and so does any number of them. -/
theorem indexed_of_steps {ms ms' : mapState} (h : ∃ a, ms.IndexedBy a)
    (hs : IndexSteps Normalized ms ms') : ∃ a, ms'.IndexedBy a := by
  induction hs with
  | refl => exact h
  | tail _ step ih =>
    obtain ⟨a, ha⟩ := ih
    exact ha.step step

@[simp] theorem newMapState_entries (features : policyFeatures) :
    (newMapState features).entries = ∅ := rfl

theorem newMapState_indexedBy (features : policyFeatures) : (newMapState features).IndexedBy ∅ where
  normalized k hk := absurd hk (AList.notMem_empty _)
  trie := refinesBelow_newTrie (by decide)
  idSets s ids hl := by cases hl
  entries k _ := by simp
  byId b hb k := by
    unfold newMapState at hb
    split at hb
    · cases hb
      simp
    · cases hb
  keySets b hb id keys hl := by
    unfold newMapState at hb
    split at hb
    · cases hb
      cases hl
    · cases hb

theorem newMapState_byIdNonempty (features : policyFeatures) : (newMapState features).ByIdNonempty := by
  intro b hb id keys hl
  unfold newMapState at hb
  split at hb
  · cases hb
    cases hl
  · cases hb

namespace IndexedBy

variable {ms : mapState} {a : AList fun _ : Slot => IDSet}

/-- What the agreement says in the terms of the trie's API: a normalized key is an entry exactly
when its identity is in the set that `ExactLookup` finds at its prefix length and `LPMKey`. -/
theorem mem_iff_exactLookup (h : ms.IndexedBy a) {k : Key} (hk : k.toLPMKey.Normalized) :
    k ∈ ms.entries ↔
      k.identity ∈ (ms.trie.exactLookup k.prefixLength k.toLPMKey).getD [] := by
  rw [h.trie.exactLookup lpmKey_contract hk.prefixLength_le, h.entries k hk]
  rfl

/-- No set that the trie holds is empty. -/
theorem trie_sets_ne_nil (h : ms.IndexedBy a) {e : Entry LPMKey IDSet}
    (he : e ∈ ms.trie.root.entries) : e.value ≠ [] :=
  (h.idSets _ _ (h.trie.lookup_of_mem he)).2

end IndexedBy

theorem ByIdNonempty.step {N : LPMKey → Prop} {ms ms' : mapState} (h : ms.ByIdNonempty)
    (hs : IndexStep N ms ms') : ms'.ByIdNonempty := by
  cases hs with
  | upsert k e hk =>
    intro b hb id keys hl
    unfold mapState.upsert at hb
    split at hb
    · exact h b hb id keys hl
    · obtain ⟨byId, hbyId, rfl⟩ := Option.map_eq_some_iff.mp hb
      by_cases hid : id = k.identity
      · subst hid
        rw [AList.lookup_insert] at hl
        cases hl
        exact List.ne_nil_of_mem List.mem_insert_self
      · rw [AList.lookup_insert_ne hid] at hl
        exact h byId hbyId id keys hl
  | delete k =>
    intro b hb id keys hl
    unfold mapState.delete at hb
    split at hb
    · obtain ⟨byId, hbyId, rfl⟩ := Option.map_eq_some_iff.mp hb
      split at hl
      · exact h byId hbyId id keys hl
      · rw [lookup_eraseOrInsert] at hl
        split at hl
        · split at hl
          · cases hl
          · next hc =>
            cases hl
            exact fun he => hc (by rw [he]; rfl)
        · exact h byId hbyId id keys hl
    · exact h b hb id keys hl
  | updateExisting k v hin => exact h

theorem ByIdNonempty.steps {N : LPMKey → Prop} {ms ms' : mapState} (h : ms.ByIdNonempty)
    (hs : IndexSteps N ms ms') : ms'.ByIdNonempty := by
  induction hs with
  | refl => exact h
  | tail _ step ih => exact ih.step step

end mapState

end Cilium.Policy
