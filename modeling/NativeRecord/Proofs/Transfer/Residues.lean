import NativeRecord.Proofs.Transfer.Restoring

/-!
# Integers in few bits

A scalar keeps an integer modulo a power of two.  Which integers its bits stand for is up to its
type: those around zero if the bits are read with a sign, and those from zero on if they are not.
The integer that comes in may have been given with or without a sign, whatever the type is.

An integer value is a word together with a way to read it, and the two do not have to agree with the
type of the scalar it is put into.  What survives is the integer modulo the width.  So the proof
forgets the word as soon as it can: the bits that are encoded are the same as the integer modulo a
power of two, and what is decoded is, of all the integers that are the same modulo that power, the
one that the bits stand for.  There is exactly one (`Scalar.residue_eq_iff`), which also says that
encoding it once more changes nothing.

## What is here

* `Value.number?` — the integer that a value stands for.
* `Scalar.Holds` — the integers that some bits of a type stand for, and `Scalar.residue`, the one
  that is left of an integer: the only one that is the same modulo `2 ^ bits`
  (`Scalar.residue_eq_iff`).
* `Scalar.number?_decode_encode` — the residue of an integer is what is read of its bits.
* `Scalar.Keeps` — what bits of a type keep of a value; `Scalar.roundTrips` — encoding and decoding
  keep it, and keep it again.
-/

set_option autoImplicit false
namespace NativeRecord

/-! ## The integer that a value stands for

Values of different sorts may stand for one integer.  With the sort, the integer makes out the
value. -/

/-- The integer that a value stands for: of a pointer, the address. -/
def Value.number? : Value → Option Int
  | .int n => some n.toInt
  | .uint w => some w.toNat
  | .pointer a => some a.word.toNat
  | _ => none

namespace Value

/-- The sort and the integer make out the value. -/
theorem eq_of_number? {v u : Value} {n : Int} (hsort : v.sort = u.sort) (hv : v.number? = some n)
    (hu : u.number? = some n) : v = u := by
  have hword : ∀ {w u : Word}, some (w.toNat : Int) = some n → some (u.toNat : Int) = some n →
      w = u := by
    intro w u hw hu
    refine BitVec.eq_of_toNat_eq (Int.ofNat.inj ?_)
    exact Option.some.inj (hw.trans hu.symm)
  cases v with
  | int m =>
    cases u with
    | int k => exact congrArg int (Int64.toInt_inj.1 (Option.some.inj (hv.trans hu.symm)))
    | _ => cases hsort
  | uint w =>
    cases u with
    | uint _ => exact congrArg uint (hword hv hu)
    | _ => cases hsort
  | pointer a =>
    cases u with
    | pointer _ => exact congrArg (fun w => pointer ⟨w⟩) (hword hv hu)
    | _ => cases hsort
  | _ => cases hv

theorem toWord?_eq_none {v : Value} (h : v.number? = none) : v.toWord? = none := by
  cases v <;> first | rfl | cases h

theorem toAddress?_eq_none {v : Value} (h : v.number? = none) : v.toAddress? = none := by
  cases v <;> first | rfl | cases h

/-- The word of an integer is the same modulo powers of two. -/
theorem emod_of_toWord? {v : Value} {b : Word} {x : Int} {bits : Nat} (h64 : bits ≤ 64)
    (hb : v.toWord? = some b) (hx : v.number? = some x) :
    (b.toNat : Int) % 2 ^ bits = x % 2 ^ bits := by
  cases v with
  | int n =>
    cases hb
    cases hx
    have hdvd : (2 ^ bits : Int) ∣ ((2 ^ 64 : Nat) : Int) := by
      have h := Int.natCast_dvd_natCast.2 (Nat.pow_dvd_pow 2 h64)
      rwa [Int.natCast_pow 2 bits] at h
    rw [← Int64.toInt_toBitVec, BitVec.toInt_eq_toNat_bmod, ← Int.emod_emod_of_dvd _ hdvd,
      ← Int.bmod_emod, Int.emod_emod_of_dvd _ hdvd]
  | uint w =>
    cases hb
    cases hx
    rfl
  | _ => cases hb

end Value

/-! ## The integers of a type

`residue` is computed by `bmod` or `%`, and characterized by what it is: the representative within
the range of the type. -/

namespace Scalar

/-- The integers that `bits` bits of the type stand for. -/
def Holds (type : Scalar) (bits : Nat) (n : Int) : Prop :=
  if type.type.isSigned then -2 ^ (bits - 1) ≤ n ∧ n < 2 ^ (bits - 1) else 0 ≤ n ∧ n < 2 ^ bits

/-- What is left of an integer in `bits` bits. -/
def residue (type : Scalar) (bits : Nat) (n : Int) : Int :=
  if type.type.isSigned then n.bmod (2 ^ bits) else n % 2 ^ bits

variable {type : Scalar} {bits : Nat} {x n : Int}

/-- **Of the integers that are the same modulo the width, the bits hold exactly one.** -/
theorem residue_eq_iff (hpos : 0 < bits) :
    type.residue bits x = n ↔ type.Holds bits n ∧ n % 2 ^ bits = x % 2 ^ bits := by
  have hwidth : (0 : Int) < 2 ^ bits := Int.pow_pos (by decide)
  rw [residue, Holds]
  split
  · have hhalf : (2 : Int) ^ bits = 2 ^ (bits - 1) * 2 := by
      obtain ⟨k, rfl⟩ : ∃ k, bits = k + 1 := ⟨bits - 1, by omega⟩
      exact Int.pow_succ 2 k
    rw [Int.bmod_eq_iff (Nat.two_pow_pos bits), Int.natCast_pow,
      Int.emod_eq_emod_iff_emod_sub_eq_zero, ← Int.dvd_iff_emod_eq_zero, ← and_assoc]
    refine and_congr_left fun _ => ?_
    have hcast : ((2 : Nat) : Int) = 2 := rfl
    rw [hcast, hhalf]
    omega
  · constructor
    · rintro rfl
      exact ⟨⟨Int.emod_nonneg x (Int.ne_of_gt hwidth), Int.emod_lt_of_pos x hwidth⟩,
        Int.emod_emod x _⟩
    · rintro ⟨⟨hlow, hhigh⟩, hsame⟩
      rw [← hsame, Int.emod_eq_of_lt hlow hhigh]

/-- Exactly the integers that the bits stand for are left as they are. -/
theorem residue_eq_self_iff (hpos : 0 < bits) : type.residue bits x = x ↔ type.Holds bits x := by
  rw [residue_eq_iff hpos, and_iff_left rfl]

theorem residue_congr {y : Int} (hpos : 0 < bits) (h : x % 2 ^ bits = y % 2 ^ bits) :
    type.residue bits x = type.residue bits y := by
  rw [residue_eq_iff hpos, h, ← residue_eq_iff hpos]

/-! ## Integers and their bits

The sort of what is read depends on the type alone, and its integer on the word modulo the width.
-/

/-- The sort of the values that are read as this type. -/
def valueSort : Scalar → ValueSort
  | pointer _ => .pointer
  | arith (.float _) => .float
  | arith .bool => .bool
  | arith a => if a.isSigned then .int else .uint

theorem valueSort_of_isInteger {a : Arith} (ha : a.isInteger = true) :
    (arith a).valueSort = if a.isSigned then .int else .uint := by
  cases a with
  | float _ | bool => cases ha
  | _ => rfl

theorem sort_decode (type : Scalar) (bits : Nat) (w : Word) :
    (type.decode bits w).sort = type.valueSort := by
  cases type with
  | pointer target => rfl
  | arith a =>
    cases a using Arith.casesInteger with
    | integer a ha =>
      rw [decode_of_isInteger ha, valueSort_of_isInteger ha]
      split <;> rfl
    | bool => rfl
    | float n => cases n <;> rfl

/-- The types whose bits stand for integers. -/
def IsNumber : Scalar → Prop
  | pointer _ => True
  | arith a => a.isInteger = true

/-- **What is read of a word is its residue.** -/
theorem number?_decode (htype : type.IsNumber) (hpos : 0 < bits) (h64 : bits ≤ 64) (w : Word) :
    (type.decode bits w).number? = some (type.residue bits w.toNat) := by
  have hunsigned : ((w.truncate bits).toNat : Int) = w.toNat % 2 ^ bits := by
    rw [Word.toNat_truncate, Nat.min_eq_left h64, Int.natCast_emod, Int.natCast_pow]
    rfl
  cases type with
  | pointer target => exact congrArg some hunsigned
  | arith a =>
    rw [decode_of_isInteger htype]
    show _ = some (if a.isSigned then _ else _)
    split
    · exact congrArg some (w.toInt_signExtend hpos h64)
    · exact congrArg some hunsigned

/-- Integers are taken by types whose bits stand for integers, as bits that are the same modulo the
width. -/
theorem number_of_bits? {v : Value} {b : Word} (h64 : bits ≤ 64) (hb : type.bits? v = some b)
    (hx : v.number? = some x) :
    type.IsNumber ∧ (b.toNat : Int) % 2 ^ bits = x % 2 ^ bits := by
  cases type with
  | pointer target =>
    obtain ⟨a, ha, rfl⟩ := Option.map_eq_some_iff.1 hb
    refine ⟨trivial, ?_⟩
    cases v <;> cases ha <;> cases hx <;> rfl
  | arith a =>
    cases a using Arith.casesInteger with
    | integer a ha =>
      have hword := (Arith.bits?_of_isInteger ha v).symm.trans hb
      exact ⟨ha, Value.emod_of_toWord? h64 hword hx⟩
    | bool =>
      cases v with
      | bool _ => cases hx
      | _ => cases hb
    | float n =>
      cases v with
      | float _ => cases hx
      | _ => cases n <;> cases hb

/-- Truth values and numbers of double precision are read as they are. -/
theorem canonical?_eq_self {v c : Value} (hsingle : type ≠ .arith (.float .f32))
    (h : type.canonical? bits v = some c) (hv : v.number? = none) : c = v := by
  cases type with
  | pointer target =>
    rw [canonical?, Value.toAddress?_eq_none hv] at h
    cases h
  | arith a =>
    cases a using Arith.casesInteger with
    | integer a ha =>
      rw [canonical?_of_isInteger ha, Value.toWord?_eq_none hv] at h
      cases h
    | bool =>
      cases v with
      | bool _ => cases h; rfl
      | _ => cases h
    | float n =>
      cases n with
      | f32 => exact absurd rfl hsingle
      | f64 =>
        cases v with
        | float _ => cases h; rfl
        | _ => cases h

/-! ## Encoding and decoding

The clauses of `RoundTrips` are put together here from what is kept, that it is kept again, and that
an integer is unchanged exactly if the bits stand for it. -/

/-- What `bits` bits of a type keep of a value. -/
structure Keeps (type : Scalar) (bits : Nat) (v kept : Value) : Prop where
  sort : kept.sort = type.valueSort
  /-- Of an integer, the only one that the bits stand for and that is the same modulo `2 ^ bits`. -/
  number : ∀ x, v.number? = some x → ∃ n, kept.number? = some n ∧
    ∀ m, m = n ↔ type.Holds bits m ∧ m % 2 ^ bits = x % 2 ^ bits
  /-- Of any other value, all. -/
  same : v.number? = none → kept = v

theorem Keeps.unique {v c d : Value} (hc : type.Keeps bits v c) (hd : type.Keeps bits v d) :
    c = d := by
  cases hv : v.number? with
  | none => rw [hc.same hv, hd.same hv]
  | some x =>
    obtain ⟨n, hn, honly⟩ := hc.number x hv
    obtain ⟨m, hm, honly'⟩ := hd.number x hv
    obtain rfl : m = n := (honly m).2 ((honly' m).1 rfl)
    exact Value.eq_of_number? (hc.sort.trans hd.sort.symm) hn hm

/-- What encoding and decoding have to do with each other, for a value with the bits `w` in a scalar
of which `bits` bits are kept. -/
structure RoundTrips (platform : Platform) (field : String) (type : Scalar) (bits : Nat) (v : Value)
    (w : Word) : Prop where
  /-- What is decoded of the bits is what they keep of the value, and nothing else is. -/
  keeps : ∀ c, type.Keeps bits v c ↔ c = type.decode bits (w.truncate bits)
  /-- It is encoded to the same bits, and they are decoded to it again. -/
  again : ∃ u,
    encodeFor field type (type.size platform) (type.decode bits (w.truncate bits)) = .ok u ∧
      u.truncate bits = w.truncate bits ∧
        type.decode bits (u.truncate bits) = type.decode bits (w.truncate bits)
  /-- An integer comes back exactly if the bits stand for it. -/
  exact : ∀ x, v.number? = some x →
    ((type.decode bits (w.truncate bits)).number? = some x ↔ type.Holds bits x)

/-- **An integer that was encoded is decoded to its residue.** -/
theorem number?_decode_encode {size : Nat} {v : Value} {w : Word} (hpos : 0 < bits)
    (h64 : bits ≤ 64) (hsize : bits ≤ 8 * size) (h : type.encode? size v = some w)
    (hx : v.number? = some x) :
    type.IsNumber ∧
      (type.decode bits (w.truncate bits)).number? = some (type.residue bits x) := by
  obtain ⟨b, hb, rfl⟩ := Option.map_eq_some_iff.1 h
  obtain ⟨htype, hsame⟩ := number_of_bits? h64 hb hx
  refine ⟨htype, ?_⟩
  rw [number?_decode htype hpos h64, Word.truncate_truncate_of_le b hsize]
  refine congrArg some (residue_congr hpos ?_)
  rw [← hsame, Word.toNat_truncate, Nat.min_eq_left h64, Int.natCast_emod, Int.natCast_pow]
  exact Int.emod_emod _ _

theorem IsNumber.givesBack (htype : type.IsNumber) (w : Word) : type.GivesBack w := by
  cases type with
  | pointer target => trivial
  | arith a =>
    cases a with
    | float _ | bool => cases htype
    | _ => trivial

/-- **Encoding and decoding keep as much of a value as there are bits for,** and from then on all
of it: of an integer its residue, and truth values and numbers of double precision as they are. -/
theorem roundTrips {platform : Platform} {field : String} {v : Value} {w : Word}
    (hwidth : AccessWidth (type.size platform)) (hsingle : type ≠ .arith (.float .f32))
    (hpos : 0 < bits)
    (hbits : bits = 8 * type.size platform ∨
      bits ≤ 8 * type.size platform ∧ ∃ a, type = .arith a ∧ a.allowsBitField = true)
    (hencode : encodeFor field type (type.size platform) v = .ok w) :
    RoundTrips platform field type bits v w := by
  have hsize : bits ≤ 8 * type.size platform := by omega
  have h64 : bits ≤ 64 := by have := hwidth.le; omega
  have hencode := encodeFor_eq_ok_iff.1 hencode
  have hsame := canonical?_eq_self hsingle (canonical?_encode hwidth.le hencode hpos hbits)
  have hnumber {x : Int} := number?_decode_encode (x := x) hpos h64 hsize hencode
  have hkeeps : type.Keeps bits v (type.decode bits (w.truncate bits)) := by
    refine ⟨sort_decode .., fun x hx => ⟨_, (hnumber hx).2, fun m => ?_⟩, hsame⟩
    rw [eq_comm, residue_eq_iff hpos]
  refine ⟨fun c => ⟨fun hc => hc.unique hkeeps, fun hc => hc ▸ hkeeps⟩, ?_, fun x hx => ?_⟩
  · obtain ⟨u, hu, hkept⟩ : ∃ u, type.encode? (type.size platform)
        (type.decode bits (w.truncate bits)) = some u ∧ u.truncate bits = w.truncate bits := by
      cases hv : v.number? with
      | none => exact ⟨w, (hsame hv).symm ▸ hencode, rfl⟩
      | some x =>
        exact encode?_decode hwidth (w.truncate_truncate bits) ((hnumber hv).1.givesBack _) hbits
    exact ⟨u, encodeFor_eq_ok_iff.2 hu, hkept, congrArg _ hkept⟩
  · rw [(hnumber hx).2, Option.some.injEq, residue_eq_self_iff hpos]

/-- Twelve bits of a signed type: of an unsigned number of 64 bits, a negative one is left. -/
theorem roundTrips_twelveBits :
    AccessWidth ((arith (.signed .w32)).size .lp64) ∧ (arith (.signed .w32)).size .lp64 = 4 ∧
      Arith.allowsBitField (.signed .w32) = true ∧
      encodeFor "level" (arith (.signed .w32)) 4 (.uint 0xFFFFFFFFFFFFF801) = .ok 0xFFFFF801 ∧
      RoundTrips .lp64 "level" (arith (.signed .w32)) 12 (.uint 0xFFFFFFFFFFFFF801) 0xFFFFF801 ∧
      (arith (.signed .w32)).decode 12 (Word.truncate 0xFFFFF801 12) = .int (-2047) :=
  ⟨by decide, rfl, rfl, rfl, roundTrips (by decide) (by decide) (by decide)
    (.inr ⟨by decide, _, rfl, rfl⟩) rfl, rfl⟩

end Scalar

end NativeRecord
