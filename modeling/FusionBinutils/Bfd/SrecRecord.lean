import FusionBinutils.Bfd.Srec

/-! The records that `srec_write_record` makes up in its buffer. -/
namespace FusionBinutils.Bfd.Srec
open HexFile
open Memory (Block)

/-- `MAXCHUNK`: "The maximum number of address+data+crc bytes on a line is FF." -/
def maxChunk : Nat := 0xff

/-- The local variables of `srec_write_record`: its buffer, where `dst` stands in it, and the sum. -/
structure Line where
  buffer : List Char
  dst : Nat
  checkSum : BitVec 32

/-- `*dst++ = c`; `none` is a write outside of the buffer. -/
def Line.put (line : Line) (c : Char) : Option Line :=
  if line.dst < line.buffer.length then
    some { line with buffer := line.buffer.set line.dst c, dst := line.dst + 1 }
  else none

/-- `TOHEX (d, x, check_sum)`. -/
def Line.toHex (line : Line) (d x : Nat) : Option Line :=
  if d + 1 < line.buffer.length then
    some { line with
      buffer := (line.buffer.set (d + 1) (Hex.digit x)).set d (Hex.digit (x / 16))
      checkSum := line.checkSum + .ofNat 32 (x % 256) }
  else none

/-- `TOHEX` at `dst`, which then moves on. -/
def Line.putHex (line : Line) (x : Nat) : Option Line :=
  (line.toHex line.dst x).map fun line => { line with dst := line.dst + 2 }

/-- `srec_write_record`, with what the buffer holds at first; the text that it writes. -/
def writeRecord (buffer : List Char) (type address : Nat) (data : List BfdByte) :
    Option (List Char) := do
  let line : Line := ⟨buffer, 0, 0⟩
  let line ← line.put 'S'
  let line ← line.put (Char.ofNat (48 + type))
  let length := line.dst
  let line : Line := { line with dst := line.dst + 2 }
  let line ← (addrBytes type address).foldlM (fun line b => line.putHex b.toNat) line
  let line ← data.foldlM (fun line b => line.putHex b.toNat) line
  -- fill in the length
  let line ← line.toHex length ((line.dst - length) / 2)
  let sum : BitVec 32 := 255 - (line.checkSum &&& 0xff)
  let line ← line.putHex sum.toNat
  let line ← line.put '\r'
  let line ← line.put '\n'
  some (line.buffer.take line.dst)

/-- What the callers pass: `srec_write_header`, any turn of the loop of `srec_write_section` with
the records of the type that the calls of `srec_set_section_contents` chose and any limit of the
user, and `srec_write_terminator`. `srec_write_symbols` writes its lines itself. -/
inductive Passes (forceS3 : Bool) (len opb : Nat) : Nat → Nat → List BfdByte → Prop
  | header (filename : List BfdByte) : Passes forceS3 len opb 0 0 (filename.take 40)
  | section (calls : List SetCall) (list : Block BfdByte) (written : Nat)
      (h : written < list.cells.length) :
      Passes forceS3 len opb (recordType forceS3 calls)
        ((list.start + written / opb) % 2 ^ 64)
        ((list.cells.drop written).take
          (octetsThisChunk (recordLen (recordType forceS3 calls) len)
            (list.cells.length - written)))
  | terminator (calls : List SetCall) (start : Nat) :
      Passes forceS3 len opb (10 - recordType forceS3 calls) start []

/-! The buffer is filled from its front. -/

variable (pre : List Char) {rest junk : List Char} {sum : BitVec 32} {type address len opb x : Nat}
  {data : List BfdByte}

theorem put_eq {a c : Char} :
    Line.put ⟨pre ++ a :: rest, pre.length, sum⟩ c
      = some ⟨(pre ++ [c]) ++ rest, (pre ++ [c]).length, sum⟩ := by
  have hroom : pre.length < (pre ++ a :: rest).length := by
    rw [List.length_append, List.length_cons]
    omega
  have hset : (pre ++ a :: rest).set pre.length c = (pre ++ [c]) ++ rest := by
    rw [List.set_append_right _ _ (Nat.le_refl _), Nat.sub_self, List.set_cons_zero,
      List.append_assoc, List.singleton_append]
  rw [Line.put, if_pos hroom, hset, List.length_append, List.length_singleton]

theorem toHex_eq {a b : Char} {dst : Nat} :
    Line.toHex ⟨pre ++ a :: b :: rest, dst, sum⟩ pre.length x
      = some ⟨pre ++ Hex.two x ++ rest, dst, sum + .ofNat 32 (x % 256)⟩ := by
  have hroom : pre.length + 1 < (pre ++ a :: b :: rest).length := by
    rw [List.length_append, List.length_cons, List.length_cons]
    omega
  have hset : ((pre ++ a :: b :: rest).set (pre.length + 1) (Hex.digit x)).set pre.length
      (Hex.digit (x / 16)) = pre ++ Hex.two x ++ rest := by
    have hone : pre.length + 1 - pre.length = 1 := Nat.add_sub_cancel_left _ _
    rw [List.set_append_right _ _ (Nat.le_succ pre.length), hone,
      List.set_append_right _ _ (Nat.le_refl _), Nat.sub_self, List.append_assoc]
    rfl
  simp only [Line.toHex, if_pos hroom, hset]

theorem putHex_eq {a b : Char} :
    Line.putHex ⟨pre ++ a :: b :: rest, pre.length, sum⟩ x
      = some ⟨pre ++ Hex.two x ++ rest, (pre ++ Hex.two x).length,
          sum + .ofNat 32 (x % 256)⟩ := by
  rw [Line.putHex, toHex_eq, Option.map_some, List.length_append, Hex.length_two]

/-- Bytes in turn take two cells each. -/
theorem foldlM_putHex (bs : List BfdByte) (hroom : bs.length * 2 ≤ junk.length) :
    bs.foldlM (fun (line : Line) b => line.putHex b.toNat) ⟨pre ++ junk, pre.length, sum⟩
      = some ⟨pre ++ Hex.text bs ++ junk.drop (bs.length * 2), (pre ++ Hex.text bs).length,
          sum + .ofNat 32 (bs.map BitVec.toNat).sum⟩ := by
  induction bs generalizing pre junk sum with
  | nil => simp [Hex.text]
  | cons b bs ih =>
    cases junk with
    | nil => simp at hroom
    | cons c junk =>
      cases junk with
      | nil =>
        simp only [List.length_cons, List.length_nil] at hroom
        omega
      | cons d junk =>
        rw [List.foldlM_cons, putHex_eq]
        simp only [Option.bind_eq_bind, Option.bind_some]
        rw [ih _ (by simp only [List.length_cons] at hroom; omega)]
        have hdrop : (b :: bs).length * 2 = bs.length * 2 + 2 := by
          rw [List.length_cons]
          omega
        have htext : Hex.text (b :: bs) = Hex.two b.toNat ++ Hex.text bs := List.flatMap_cons
        have hsum : sum + BitVec.ofNat 32 (b.toNat % 256)
            + BitVec.ofNat 32 (bs.map BitVec.toNat).sum
            = sum + BitVec.ofNat 32 ((b :: bs).map BitVec.toNat).sum := by
          rw [Nat.mod_eq_of_lt b.isLt, List.map_cons, List.sum_cons, BitVec.ofNat_add,
            BitVec.add_assoc]
        rw [hdrop, List.drop_succ_cons, List.drop_succ_cons, htext, hsum, ← List.append_assoc]

/-- The last byte of a record, from the sum of the others. -/
theorem checkByte_eq (n : Nat) :
    ((255 : BitVec 32) - (BitVec.ofNat 32 n &&& 0xff)).toNat = 255 - n % 256 := by
  have hmask : (0xff : BitVec 32).toNat = 2 ^ 8 - 1 := rfl
  have hand : (BitVec.ofNat 32 n &&& 0xff).toNat = n % 256 := by
    rw [BitVec.toNat_and, hmask, Nat.and_two_pow_sub_one_eq_mod, BitVec.toNat_ofNat]
    omega
  have hle : BitVec.ofNat 32 n &&& 0xff ≤ 255 := by
    rw [BitVec.le_def, hand]
    exact Nat.le_of_lt_succ (Nat.mod_lt n (by decide))
  rw [BitVec.toNat_sub_of_le hle, hand]
  rfl

theorem text_byte {n : Nat} (h : n < 256) : Hex.text [.ofNat 8 n] = Hex.two n := by
  have hn : (BitVec.ofNat 8 n).toNat = n := by
    rw [BitVec.toNat_ofNat, Nat.mod_eq_of_lt h]
  rw [Hex.text, List.flatMap_singleton, hn]

theorem checksum_lt (r : Record) : r.checksum < 256 := by
  rw [Record.checksum]
  omega

/-- The parts of a record, when its length is that of a byte. -/
theorem text_parts {r : Record} (hlen : r.fields.length ≤ 254) :
    r.text = ['S', Char.ofNat (48 + r.type)] ++ Hex.two r.count ++ Hex.text r.fields
      ++ Hex.two r.checksum ++ ['\r', '\n'] := by
  have hcount : r.count < 256 := by
    rw [Record.count]
    omega
  have hcons : Hex.text (.ofNat 8 r.count :: r.fields) = Hex.two r.count ++ Hex.text r.fields := by
    rw [← text_byte hcount, ← Hex.text_append, List.singleton_append]
  rw [Record.text, Hex.text_append, hcons, text_byte (checksum_lt r)]
  simp only [List.append_assoc, List.cons_append, List.nil_append]

/-- A record of up to 254 bytes of address and data fits, and the buffer is full with 254. -/
theorem writeRecord_eq (r : Record) (hlen : r.fields.length ≤ 254)
    (hjunk : junk.length = 2 * maxChunk + 6) :
    writeRecord junk r.type r.address r.data = some r.text := by
  match junk with
  | [] => cases hjunk
  | [_] => cases hjunk
  | [_, _] => cases hjunk
  | [_, _, _] => cases hjunk
  | c₀ :: c₁ :: c₂ :: c₃ :: junk =>
    have hjunk : junk.length = 512 := by
      have h4 : junk.length + 1 + 1 + 1 + 1 = 516 := hjunk
      omega
    have hfields : (addrBytes r.type r.address).length + r.data.length = r.fields.length := by
      rw [Record.fields, List.length_append]
    obtain ⟨kind, hk⟩ : ∃ kind, kind = Char.ofNat (48 + r.type) := ⟨_, rfl⟩
    have hS : Line.put ⟨c₀ :: c₁ :: c₂ :: c₃ :: junk, 0, 0⟩ 'S'
        = some ⟨'S' :: c₁ :: c₂ :: c₃ :: junk, 1, 0⟩ := put_eq []
    have hkind : Line.put ⟨'S' :: c₁ :: c₂ :: c₃ :: junk, 1, 0⟩ kind
        = some ⟨'S' :: kind :: c₂ :: c₃ :: junk, 2, 0⟩ := put_eq ['S']
    -- the address and the data, behind the two cells of the length
    obtain ⟨line, haddr, hdata⟩ : ∃ line : Line,
        (addrBytes r.type r.address).foldlM (fun (line : Line) b => line.putHex b.toNat)
          ⟨'S' :: kind :: c₂ :: c₃ :: junk, 2 + 2, 0⟩ = some line ∧
        r.data.foldlM (fun (line : Line) b => line.putHex b.toNat) line
          = some ⟨['S', kind, c₂, c₃] ++ Hex.text r.fields ++ junk.drop (r.fields.length * 2),
            (['S', kind, c₂, c₃] ++ Hex.text r.fields).length,
            0 + .ofNat 32 (r.fields.map BitVec.toNat).sum⟩ := by
      apply Option.bind_eq_some_iff.mp
      rw [← Option.bind_eq_bind, ← List.foldlM_append]
      exact foldlM_putHex ['S', kind, c₂, c₃] r.fields (by omega)
    -- what is left of the buffer
    obtain ⟨d₀, d₁, d₂, d₃, rest, hrest⟩ : ∃ d₀ d₁ d₂ d₃ rest,
        junk.drop (r.fields.length * 2) = d₀ :: d₁ :: d₂ :: d₃ :: rest := by
      have hleft : 4 ≤ (junk.drop (r.fields.length * 2)).length := by
        rw [List.length_drop]
        omega
      match junk.drop (r.fields.length * 2), hleft with
      | d₀ :: d₁ :: d₂ :: d₃ :: rest, _ => exact ⟨d₀, d₁, d₂, d₃, rest, rfl⟩
    obtain ⟨full, hfull⟩ : ∃ full, full = ['S', kind] ++ Hex.two r.count ++ Hex.text r.fields :=
      ⟨_, rfl⟩
    have hlength : full.length = 4 + r.fields.length * 2 := by
      rw [hfull, List.length_append, Hex.length_text]
      rfl
    have hdst : (['S', kind, c₂, c₃] ++ Hex.text r.fields).length = full.length := by
      rw [hlength, List.length_append, Hex.length_text]
      rfl
    have hcount : (full.length - 2) / 2 = r.count := by
      rw [hlength, Record.count]
      omega
    have hfill : Line.toHex ⟨['S', kind, c₂, c₃] ++ Hex.text r.fields ++
          d₀ :: d₁ :: d₂ :: d₃ :: rest, full.length,
          0 + .ofNat 32 (r.fields.map BitVec.toNat).sum⟩ 2 r.count
        = some ⟨full ++ d₀ :: d₁ :: d₂ :: d₃ :: rest, full.length,
          0 + .ofNat 32 (r.fields.map BitVec.toNat).sum + .ofNat 32 (r.count % 256)⟩ := by
      rw [hfull, List.append_assoc _ (Hex.text r.fields), List.append_assoc _ (Hex.text r.fields)]
      exact toHex_eq ['S', kind]
    have hsum : (255 - ((0 + .ofNat 32 (r.fields.map BitVec.toNat).sum + .ofNat 32 (r.count % 256))
        &&& 0xff) : BitVec 32).toNat = r.checksum := by
      have hsmall : r.count % 256 = r.count := Nat.mod_eq_of_lt (by rw [Record.count]; omega)
      rw [hsmall, zero_add, ← BitVec.ofNat_add, checkByte_eq, Record.checksum]
    have hcheck : Line.putHex ⟨full ++ d₀ :: d₁ :: d₂ :: d₃ :: rest, full.length,
        0 + .ofNat 32 (r.fields.map BitVec.toNat).sum + .ofNat 32 (r.count % 256)⟩ r.checksum
        = some ⟨full ++ Hex.two r.checksum ++ d₂ :: d₃ :: rest,
          (full ++ Hex.two r.checksum).length,
          0 + .ofNat 32 (r.fields.map BitVec.toNat).sum + .ofNat 32 (r.count % 256)
            + .ofNat 32 (r.checksum % 256)⟩ := putHex_eq full
    simp only [writeRecord, ← hk, hS, hkind, Option.bind_eq_bind, Option.bind_some, haddr, hdata,
      hrest, hdst, hcount, hfill, hsum, hcheck, put_eq, Option.some.injEq]
    rw [List.take_left, hfull, text_parts hlen, hk]
    simp only [List.append_assoc, List.cons_append, List.nil_append]

/-! What the callers pass. -/

theorem setType_range {forceS3 : Bool} {c : SetCall} (h : type = 1 ∨ type = 2 ∨ type = 3) :
    setType forceS3 type c = 1 ∨ setType forceS3 type c = 2 ∨ setType forceS3 type c = 3 := by
  unfold setType
  split
  · exact h
  · split
    · exact .inr (.inr rfl)
    · dsimp only
      split
      · exact h
      · split
        · exact .inr (.inl rfl)
        · exact .inr (.inr rfl)

theorem recordType_range (forceS3 : Bool) (calls : List SetCall) :
    recordType forceS3 calls = 1 ∨ recordType forceS3 calls = 2 ∨ recordType forceS3 calls = 3 := by
  have hfold : ∀ (calls : List SetCall) (type : Nat), type = 1 ∨ type = 2 ∨ type = 3 →
      calls.foldl (setType forceS3) type = 1 ∨ calls.foldl (setType forceS3) type = 2 ∨
        calls.foldl (setType forceS3) type = 3 := by
    intro calls
    induction calls with
    | nil => exact fun _ => id
    | cons c calls ih => exact fun type h => ih _ (setType_range h)
  exact hfold calls 1 (.inl rfl)

theorem octetsThisChunk_le (len left : Nat) : octetsThisChunk len left ≤ len := by
  unfold octetsThisChunk
  split <;> omega

/-- With four bytes of address at most, what is passed has at most 254 bytes in all. -/
theorem passes_length {forceS3 : Bool} (h : Passes forceS3 len opb type address data) :
    (addrBytes type address ++ data).length ≤ 254 := by
  rw [List.length_append]
  cases h with
  | header filename =>
    have htake : (filename.take 40).length ≤ 40 := List.length_take_le 40 filename
    have haddr : (addrBytes 0 0).length = 2 := rfl
    omega
  | «section» calls list written h =>
    have htype := recordType_range forceS3 calls
    have hlen := recordLen_le htype len
    have hmax : maxChunk = 255 := rfl
    generalize recordType forceS3 calls = type at htype hlen ⊢
    have htake := List.length_take_le (octetsThisChunk (recordLen type len)
      (list.cells.length - written)) (list.cells.drop written)
    have hchunk := octetsThisChunk_le (recordLen type len)
      (list.cells.length - written)
    have haddr : ∀ a, (addrBytes type a).length = type + 1 := by
      intro a
      rcases htype with rfl | rfl | rfl <;> rfl
    rw [haddr]
    omega
  | terminator calls start =>
    have haddr : (addrBytes (10 - recordType forceS3 calls) address).length ≤ 4 := by
      rcases recordType_range forceS3 calls with h | h | h <;> rw [h]
      · exact Nat.le_refl 2 |>.trans (by omega)
      · exact Nat.le_refl 3 |>.trans (by omega)
      · exact Nat.le_refl 4
    rw [List.length_nil]
    omega

/-- Every record that is passed fits the buffer, gives its length in one byte and sums up: with any
limit of the user and whatever the buffer holds at first. -/
theorem writeRecord_fits (forceS3 : Bool) (len opb type address : Nat) (data : List BfdByte)
    (buffer : List Char) (hbuffer : buffer.length = 2 * maxChunk + 6)
    (h : Passes forceS3 len opb type address data) :
    ∃ length check : BfdByte,
      writeRecord buffer type address data = some ('S' :: Char.ofNat (48 + type) ::
        Hex.text (length :: (addrBytes type address ++ data) ++ [check]) ++ ['\r', '\n']) ∧
      length.toNat = (addrBytes type address ++ data ++ [check]).length ∧
      check.toNat = 255 -
        (length.toNat + ((addrBytes type address ++ data).map BitVec.toNat).sum) % 256 := by
  have hlen : (Record.mk type address data).fields.length ≤ 254 := passes_length h
  have hcount : (Record.mk type address data).count < 256 := by
    rw [Record.count]
    omega
  refine ⟨.ofNat 8 (Record.mk type address data).count,
    .ofNat 8 (Record.mk type address data).checksum,
    writeRecord_eq (Record.mk type address data) hlen hbuffer, ?_, ?_⟩
  · rw [BitVec.toNat_ofNat, Nat.mod_eq_of_lt hcount, List.length_append]
    rfl
  · rw [BitVec.toNat_ofNat, BitVec.toNat_ofNat, Nat.mod_eq_of_lt hcount,
      Nat.mod_eq_of_lt (checksum_lt _), Record.checksum, Nat.add_comm]
    rfl

/-- Two bytes at address 0, with a limit of 16. -/
theorem writeRecord_fits_two :
    ∃ length check : BfdByte,
      writeRecord (List.replicate 516 ' ') 1 0 [1, 2] = some ('S' :: Char.ofNat (48 + 1) ::
        Hex.text (length :: (addrBytes 1 0 ++ [1, 2]) ++ [check]) ++ ['\r', '\n']) ∧
      length.toNat = (addrBytes 1 0 ++ [1, 2] ++ [check]).length ∧
      check.toNat = 255 - (length.toNat + ((addrBytes 1 0 ++ [1, 2]).map BitVec.toNat).sum) % 256 :=
  writeRecord_fits false 16 1 1 0 [1, 2] (List.replicate 516 ' ') List.length_replicate
    (Passes.section [] ⟨0, [1, 2]⟩ 0 (by decide))

end FusionBinutils.Bfd.Srec
