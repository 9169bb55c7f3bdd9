import FusionBinutils.Gas.BigLeb128
import FusionBinutils.Lib.Endian

/-! Data directives: the bytes that `emit_expr_with_reloc` stores for an expression (gas/read.c).
The look for the line numbers of DWARF 1 changes nothing but the listing and is left out, as is
`check_eh_frame`, which answers 0 outside of its sections. -/
namespace FusionBinutils.Gas.Emit

open Limbs
open Integer (Littlenum)
open BigLeb (NowSeg convertToBignum dataOperand)
open Gas.Expr (ExprS Mem)

/-- The state around a directive; `reloc` says that an operand named a relocation. -/
structure Directive where
  needPass2 : Bool
  seg : NowSeg
  reloc : Bool
  bigEndian : Bool

/-- What a directive adds: the bytes of a frag, cleared bytes with a fixup, or a step of
`abs_section_offset`. -/
inductive Emission where
  | nothing
  | absolute (nbytes : Nat)
  | bytes (bs : List BfdByte)
  | fix (exp : ExprS) (nbytes : Nat)
  deriving DecidableEq

/-- `md_number_to_chars`, in the byte order of the target. -/
def mdNumberToChars (bigEndian : Bool) (val : Vma) (n : Nat) : List BfdByte :=
  Endian.put bigEndian n val.toNat

/-- Lower case hexadecimal, as `%llx` prints it. -/
def hexText (x : Vma) : String := String.ofList (Nat.toDigits 16 x.toNat)

/-- The branch for `O_constant`. -/
def emitConstant (bigEndian : Bool) (get : Vma) (nbytes : Nat) : List BfdByte × List Msg :=
  -- don't store the bits of the mask
  let mask : Vma := if 8 ≤ nbytes then 0 else BitVec.allOnes 64 <<< (8 * nbytes)
  let hibit : Vma := if 8 < nbytes then 0 else 1 <<< (nbytes * 8 - 1)
  let use := get &&& ~~~mask
  -- leading bits contain both 0s & 1s
  let truncated := get &&& mask ≠ 0 ∧ (get &&& mask ≠ mask ∨ get &&& hibit = 0)
  (mdNumberToChars bigEndian use nbytes,
    if truncated then
      [.warn ("value 0x" ++ hexText get ++ " truncated to 0x" ++ hexText use)]
    else [])

/-- The littlenums that are not stored hold more than the sign of those that are. -/
def bignumTruncated (nums : List Littlenum) (nbytes : Nat) : Bool :=
  if nbytes / 2 ≠ 0 then
    let sign : Littlenum := if (nums.getD (nbytes / 2 - 1) 0).msb then 0xffff else 0
    (nums.drop (nbytes / 2)).any (· != sign)
  else if nbytes = 1 then
    let low := nums.getD 0 0
    let sign : Littlenum := if low &&& 0x80#16 ≠ 0 then 0xffff else 0
    if low &&& 0xff00#16 = sign &&& 0xff00#16 then (nums.drop 1).any (· != sign) else true
  else !nums.isEmpty

/-- The branch for `O_big`. -/
def emitBignum (bigEndian : Bool) (nums : List Littlenum) (extraDigit : Vma) (nbytes : Nat) :
    List BfdByte × List Msg :=
  let size := min nbytes (2 * nums.length)
  let msgs := if nbytes < 2 * nums.length ∧ bignumTruncated nums nbytes then
      [.warn ("bignum truncated to " ++ toString nbytes ++ " bytes")]
    else []
  let digit (val : Vma) := mdNumberToChars bigEndian val 2
  let stored := (nums.take (size / 2)).map fun n => digit (n.setWidth 64)
  if nbytes = 1 then (mdNumberToChars bigEndian ((nums.getD 0 0).setWidth 64) 1, msgs)
  else if bigEndian then
    let fill := List.replicate ((nbytes - size + 1) / 2) (digit extraDigit)
    ((fill ++ stored.reverse).flatten, msgs)
  else
    let fill := List.replicate ((nbytes - 2 * (size / 2)) / 2) (digit extraDigit)
    ((stored ++ fill).flatten, msgs)

/-- Negate the bignum: one's complement each digit and add 1. -/
def negateBignum : Nat → List Littlenum → List Littlenum
  | _, [] => []
  | carry, n :: nums =>
    let next := (~~~n).toNat + carry
    .ofNat 16 next :: negateBignum (next / 2 ^ 16) nums

/-- A negative bignum is the `-` of a symbol that stands for one. -/
def negatedBignum (m : Mem) (exp : ExprS) (nums : List Littlenum) : Option ExprS := do
  let i ← exp.addSymbol
  let s ← m.sym i
  if exp.op = .uminus ∧ exp.addNumber = 0 ∧ s.value.op = .big ∧ nums ≠ [] then some s.value else none

/-- The end of the function: the room for the bytes is there. -/
def store (d : Directive) (exp : ExprS) (nums : List Littlenum) (extraDigit : Vma) (nbytes : Nat) :
    Emission × List Msg :=
  if d.reloc then (.fix exp nbytes, [])
  else
    match exp.op with
    | .constant =>
      if 8 < nbytes then
        -- too many bytes for `md_number_to_chars`: handle it as a bignum
        let extraDigit := if exp.unsigned then 0 else -1
        let r := emitBignum d.bigEndian (convertToBignum exp (!exp.unsigned)) extraDigit nbytes
        (.bytes r.1, r.2)
      else
        let r := emitConstant d.bigEndian exp.addNumber nbytes
        (.bytes r.1, r.2)
    | .big =>
      let r := emitBignum d.bigEndian nums extraDigit nbytes
      (.bytes r.1, r.2)
    | _ => (.fix exp nbytes, [])

/-- `emit_expr_with_reloc`; `nums` are the littlenums of `generic_bignum` that an `O_big` counts. -/
def emitExprWithReloc (d : Directive) (m : Mem) (exp : ExprS) (nums : List Littlenum)
    (nbytes : Nat) : Emission × List Msg :=
  if d.needPass2 then (.nothing, [])
  else
    let negated := negatedBignum m exp nums
    let extraDigit : Vma := if negated.isSome then -1 else 0
    let nums := if negated.isSome then negateBignum 1 nums else nums
    let r := dataOperand (negated.getD exp) nums
    let isZero := r.1.op = .constant ∧ r.1.addNumber = 0
    if d.seg.absolute then
      let text := "attempt to store value in absolute section"
      (.absolute nbytes, if isZero then r.2 else r.2 ++ [.bad text])
    else
      let text := "attempt to store non-zero value in section `" ++ d.seg.name ++ "'"
      let bss := if ¬ isZero ∧ d.seg.bss then [.bad text] else []
      let r' := store d r.1 nums extraDigit nbytes
      (r'.1, r.2 ++ bss ++ r'.2)

/-! The bytes as those of a number. -/

variable {bigEndian : Bool} {nums : List Littlenum} {nbytes : Nat}

/-- The littlenums hold the bytes of their number, two each. -/
theorem flatten_little (nums : List Littlenum) :
    (nums.map fun n => Endian.little 2 n.toNat).flatten = Endian.little (2 * nums.length) (value nums) := by
  induction nums with
  | nil => rfl
  | cons n nums ih =>
    have hn := n.isLt
    have hlow : Endian.put false 2 n.toNat = Endian.put false 2 (n.toNat + 2 ^ 16 * value nums) :=
      (Endian.put_eq_put_iff false).mpr (by omega)
    have hlow : Endian.little 2 n.toNat = Endian.little 2 (n.toNat + 2 ^ 16 * value nums) := hlow
    have hhigh : value nums = (n.toNat + 2 ^ 16 * value nums) / 256 ^ 2 := by omega
    rw [List.map_cons, List.flatten_cons, ih, value_cons, List.length_cons, Nat.mul_succ,
      Nat.add_comm (2 * _), Endian.little_add, ← hhigh, ← hlow]

theorem flatten_put (bigEndian : Bool) (nums : List Littlenum) :
    (if bigEndian then (nums.map fun n => Endian.put bigEndian 2 n.toNat).reverse
      else nums.map fun n => Endian.put bigEndian 2 n.toNat).flatten =
      Endian.put bigEndian (2 * nums.length) (value nums) := by
  cases bigEndian with
  | false => exact flatten_little nums
  | true =>
    have hrev : (nums.map fun n => Endian.put true 2 n.toNat) =
        (nums.map fun n => Endian.little 2 n.toNat).map List.reverse := by
      rw [List.map_map]
      rfl
    rw [if_pos rfl, hrev, ← List.reverse_flatten, flatten_little]
    rfl

theorem mdNumberToChars_setWidth (x : Vma) :
    mdNumberToChars bigEndian x 2 = Endian.put bigEndian 2 (x.setWidth 16).toNat := by
  rw [mdNumberToChars, Endian.put_eq_put_iff, BitVec.toNat_setWidth]
  omega

/-- A bignum is filled up with its extra digit to the size of the data. -/
theorem emitBignum_bytes (bigEndian : Bool) (nums : List Littlenum) (extraDigit : Vma) (k : Nat) :
    (emitBignum bigEndian nums extraDigit (2 * (nums.length + k))).1 =
      Endian.put bigEndian (2 * (nums.length + k))
        (value (nums ++ .replicate k (extraDigit.setWidth 16))) := by
  have hsize : min (2 * (nums.length + k)) (2 * nums.length) = 2 * nums.length := by omega
  have hstored : nums.map (fun n => mdNumberToChars bigEndian (n.setWidth 64) 2) =
      nums.map fun n => Endian.put bigEndian 2 n.toNat := by
    apply List.map_congr_left
    intro n _
    rw [mdNumberToChars_setWidth, BitVec.setWidth_setWidth_of_le _ (by decide), BitVec.setWidth_eq]
  have hfill : List.replicate k (mdNumberToChars bigEndian extraDigit 2) =
      (List.replicate k (extraDigit.setWidth 16)).map fun n => Endian.put bigEndian 2 n.toNat := by
    rw [List.map_replicate, mdNumberToChars_setWidth]
  have hall := flatten_put bigEndian (nums ++ .replicate k (extraDigit.setWidth 16))
  rw [List.length_append, List.length_replicate, List.map_append, ← hfill, ← hstored] at hall
  have hhalf : 2 * nums.length / 2 = nums.length := by omega
  have hlittle : (2 * (nums.length + k) - 2 * nums.length) / 2 = k := by omega
  have hbig : (2 * (nums.length + k) - 2 * nums.length + 1) / 2 = k := by omega
  have hone : 2 * (nums.length + k) ≠ 1 := by omega
  rw [← hall, emitBignum, if_neg hone]
  simp only [hsize, hhalf, hlittle, hbig, List.take_length]
  cases bigEndian with
  | false => rfl
  | true => rw [if_pos rfl, if_pos rfl, List.reverse_append, List.reverse_replicate]

/-- The bits that are stored are those of the number. -/
theorem setWidth_unmask (x : Vma) (k : Nat) :
    (x &&& ~~~(BitVec.allOnes 64 <<< k)).setWidth k = x.setWidth k := by
  apply BitVec.eq_of_getLsbD_eq
  intro i hi
  simp only [BitVec.getLsbD_setWidth, hi, decide_true, Bool.true_and, BitVec.getLsbD_and,
    BitVec.getLsbD_not, BitVec.getLsbD_shiftLeft, Bool.not_true, Bool.and_false, Bool.false_and,
    Bool.not_false, Bool.and_true]
  cases hx : x.getLsbD i with
  | false => rfl
  | true =>
    have hlt := BitVec.lt_of_getLsbD hx
    simp [hlt]

theorem emitConstant_bytes (x : Vma) (hn : nbytes ≤ 8) :
    (emitConstant bigEndian x nbytes).1 = Endian.put bigEndian nbytes x.toNat := by
  rw [emitConstant, mdNumberToChars, Endian.put_eq_put_iff]
  rcases Nat.lt_or_ge nbytes 8 with hlt | hge
  · have hbits := congrArg BitVec.toNat (setWidth_unmask x (8 * nbytes))
    rw [BitVec.toNat_setWidth, BitVec.toNat_setWidth, Nat.pow_mul] at hbits
    rw [if_neg (by omega)]
    exact hbits
  · have hmask : ~~~(0 : Vma) = BitVec.allOnes 64 := rfl
    rw [if_pos hge, hmask, BitVec.and_allOnes]

/-! A constant as a bignum. -/

/-- The littlenums of `X_add_number`. -/
def limbs (x : Vma) : List Littlenum := (List.range 4).map fun i => (x >>> (16 * i)).setWidth 16

theorem value_limbs (x : Vma) : value (limbs x) = x.toNat := by
  have hlist : limbs x = [(x >>> 0).setWidth 16, (x >>> 16).setWidth 16, (x >>> 32).setWidth 16,
      (x >>> 48).setWidth 16] := rfl
  have hx := x.isLt
  simp only [hlist, value_cons, value_nil, BitVec.toNat_setWidth, BitVec.toNat_ushiftRight,
    Nat.shiftRight_eq_div_pow]
  omega

/-- With the digits that fill it up a constant has eight littlenums, four of them its sign. -/
theorem convertToBignum_fill (exp : ExprS) (sign : Bool) :
    ∃ k, (convertToBignum exp sign).length + k = 8 ∧
      convertToBignum exp sign ++ .replicate k (if sign then 0xffff#16 else 0) =
        limbs exp.addNumber ++ .replicate 4 (if sign then 0xffff#16 else 0) := by
  rw [convertToBignum, ← limbs]
  have hlen : (limbs exp.addNumber).length = 4 := rfl
  split
  · refine ⟨3, ?_, ?_⟩
    · rw [List.length_append, hlen]
      rfl
    · rw [List.append_assoc]
      rfl
  · exact ⟨4, by rw [hlen], rfl⟩

theorem value_signed_limbs (x : Vma) (sign : Bool) :
    value (limbs x ++ .replicate 4 (if sign then 0xffff#16 else 0)) =
      x.toNat + if sign then 2 ^ 128 - 2 ^ 64 else 0 := by
  have hlen : (limbs x).length = 4 := rfl
  have hfill : value (List.replicate 4 (if sign then 0xffff#16 else 0)) =
      if sign then 2 ^ 64 - 1 else 0 := by
    cases sign <;> decide
  rw [value_append, value_limbs, hlen, hfill]
  cases sign <;> rfl

/-- Sixteen bytes of a constant: the word is extended by the sign that its flag gives it. -/
theorem store_constant_16 {d : Directive} {exp : ExprS} (hreloc : d.reloc = false)
    (hop : exp.op = .constant) (nums : List Littlenum) (extraDigit : Vma) :
    (store d exp nums extraDigit 16).1 = .bytes (Endian.put d.bigEndian 16
      (exp.addNumber.toNat + if exp.unsigned then 0 else 2 ^ 128 - 2 ^ 64)) := by
  obtain ⟨k, hlen, hfill⟩ := convertToBignum_fill exp (!exp.unsigned)
  have hdigit : (if exp.unsigned then (0 : Vma) else -1).setWidth 16 =
      if !exp.unsigned then 0xffff#16 else 0 := by
    cases exp.unsigned <;> rfl
  have hbytes := emitBignum_bytes d.bigEndian (convertToBignum exp (!exp.unsigned))
    (if exp.unsigned then (0 : Vma) else -1) k
  have hsign : (if !exp.unsigned then 2 ^ 128 - 2 ^ 64 else 0) =
      if exp.unsigned then 0 else 2 ^ 128 - 2 ^ 64 := by
    cases exp.unsigned <;> rfl
  rw [hlen, hdigit, hfill, value_signed_limbs, hsign] at hbytes
  rw [store, hreloc, if_neg Bool.false_ne_true, hop]
  exact congrArg Emission.bytes hbytes

theorem store_constant {d : Directive} {exp : ExprS} (hreloc : d.reloc = false)
    (hop : exp.op = .constant) (nums : List Littlenum) (extraDigit : Vma) (hn : nbytes ≤ 8) :
    (store d exp nums extraDigit nbytes).1 =
      .bytes (Endian.put d.bigEndian nbytes exp.addNumber.toNat) := by
  rw [store, hreloc, if_neg Bool.false_ne_true, hop]
  simp only [if_neg (show ¬ 8 < nbytes by omega), emitConstant_bytes exp.addNumber hn]

/-- A constant in a section with contents goes straight to the bytes. -/
theorem emitExprWithReloc_constant {d : Directive} {m : Mem} {exp : ExprS}
    (hpass : d.needPass2 = false) (hseg : d.seg.absolute = false) (hop : exp.op = .constant) :
    (emitExprWithReloc d m exp [] nbytes).1 = (store d exp [] 0 nbytes).1 := by
  have hnegated : negatedBignum m exp [] = none := by
    simp [negatedBignum, hop]
  have hdata : dataOperand exp [] = (exp, []) := by
    simp [dataOperand, hop]
  rw [emitExprWithReloc, hpass, if_neg Bool.false_ne_true, hnegated]
  simp only [Option.isSome_none, Bool.false_eq_true, if_false, Option.getD_none, hdata, hseg]

end FusionBinutils.Gas.Emit
