import FusionBinutils.Gas.Settle
import FusionBinutils.Lib.Offsets

/-! The bytes of a section against the addresses of its frags. Relaxation and emission meet in
`cvt_frag_to_fill`, which divides the padding of a frag by the width of its fill. -/
namespace FusionBinutils.Gas

open Offsets

variable {σ : Type} {env : SymEnv σ} {lay : Layout} {f f' nx : Frag σ} {next : Option (Frag σ)}
  {chain chain' : List (Frag σ)} {offset : Vma} {literal : List BfdByte} {msgs : List Msg}

/-- The size of a frag that has been converted to a fill. -/
def Frag.size (f : Frag σ) : Vma := f.frFix + f.frOffset * f.frVar

/-! Emission. -/

theorem fillOneByOne_stop (size : Vma) (count : Nat) (offset : Vma) :
    (fillOneByOne literal size count offset).2 = offset + BitVec.ofNat 64 count * size := by
  induction count generalizing offset with
  | zero => simp [fillOneByOne]
  | succ count ih =>
    have hsucc : BitVec.ofNat 64 (count + 1) = BitVec.ofNat 64 count + 1 := BitVec.ofNat_add ..
    simp only [fillOneByOne, ih, hsucc]
    ring

theorem fillOneByOne_head {size : Vma} {count : Nat} :
    ∀ w ∈ (fillOneByOne literal size count offset).1.head?, w.offset = offset := by
  cases count <;> simp [fillOneByOne]

theorem fillByBuffer_stop {size : Vma} {nPerBuf count : Nat} (hn : nPerBuf ≠ 0) :
    (fillByBuffer literal size nPerBuf count offset).2 =
      offset + BitVec.ofNat 64 count * size := by
  fun_induction fillByBuffer literal size nPerBuf count offset with
  | case1 nPerBuf count offset h =>
    obtain rfl : count = 0 := by omega
    simp
  | case2 nPerBuf count offset h n writes stop heq ih =>
    have hsplit : BitVec.ofNat 64 count = BitVec.ofNat 64 n + BitVec.ofNat 64 (count - n) := by
      rw [← BitVec.ofNat_add]
      congr 1
      omega
    have hstop := ih (by omega)
    rw [heq] at hstop
    rw [hstop, hsplit]
    ring

theorem fillByBuffer_head {size : Vma} {nPerBuf count : Nat} :
    ∀ w ∈ (fillByBuffer literal size nPerBuf count offset).1.head?, w.offset = offset := by
  unfold fillByBuffer
  split_ifs <;> simp

theorem writeFill_stop (f : Frag σ) (offset : Vma) :
    (writeFill f offset).2 = offset + f.frOffset * f.frVar ∧
      ∀ w ∈ (writeFill f offset).1.head?, w.offset = offset := by
  have hcount : BitVec.ofNat 64 f.frOffset.toNat = f.frOffset := by simp
  unfold writeFill
  split_ifs with hfill hlong
  · refine ⟨?_, fillOneByOne_head⟩
    rw [fillOneByOne_stop, hcount]
  · have hvar : f.frVar.toNat ≠ 0 := fun h => hfill.1 (BitVec.eq_of_toNat_eq h)
    have hle : f.frVar.toNat ≤ 256 := by
      simpa [BitVec.lt_def] using hlong
    have hbuf : 256 / f.frVar.toNat ≠ 0 := (Nat.div_pos hle (by omega)).ne'
    refine ⟨?_, fillByBuffer_head⟩
    rw [fillByBuffer_stop hbuf, hcount]
  · have hz : f.frOffset * f.frVar = 0 := by
      rcases not_and_or.mp hfill with h | h
      · rw [not_not.mp h, mul_zero]
      · rw [not_not.mp h, zero_mul]
    simp [hz]

/-- A fill ends its own size behind its start. -/
theorem writeFrag_stop (offset : Vma) (ht : f.frType = .fill) (hc : 0 ≤ f.frOffset.toInt) :
    ∃ writes, writeFrag f offset = some (writes, offset + f.size) ∧
      ∀ w ∈ writes.head?, w.offset = offset := by
  have hguard : ¬ (f.frType ≠ .fill ∨ f.frOffset.toInt < 0) := by simp [ht]; omega
  obtain ⟨hstop, hhead⟩ := writeFill_stop f (offset + f.frFix)
  refine ⟨writeFixed f offset ++ (writeFill f (offset + f.frFix)).1, ?_, ?_⟩
  · rw [writeFrag, if_neg hguard]
    simp [hstop, Frag.size, add_assoc]
  · by_cases hfix : f.frFix = 0
    · simpa [writeFixed, hfix] using hhead
    · rw [writeFixed, if_pos hfix]
      simp

/-- What `write_contents` does to a chain of fills. -/
theorem writeContents_starts (offset : Vma)
    (hf : ∀ f ∈ chain, f.frType = .fill ∧ 0 ≤ f.frOffset.toInt) :
    ∃ out, writeContents offset chain = some (out, offset + (chain.map Frag.size).sum) ∧
      out.map Emitted.start = starts Frag.size offset chain ∧
      ∀ e ∈ out, ∀ w ∈ e.writes.head?, w.offset = e.start := by
  induction chain generalizing offset with
  | nil => exact ⟨[], by simp [writeContents], rfl, by simp⟩
  | cons f rest ih =>
    obtain ⟨hfill, hrest⟩ := List.forall_mem_cons.mp hf
    obtain ⟨writes, hw, hhead⟩ := writeFrag_stop offset hfill.1 hfill.2
    obtain ⟨out, ho, hstart, hheads⟩ := ih (offset + f.size) hrest
    refine ⟨⟨offset, writes⟩ :: out, ?_, ?_, ?_⟩
    · simp [writeContents, hw, ho, add_assoc]
    · simp [hstart, starts]
    · exact List.forall_mem_cons.mpr ⟨hhead, hheads⟩

/-! Conversion. -/

theorem length_outputUleb128 (n : Nat) (value : Vma) :
    (outputUleb128 n value).length = sizeofUleb128 n value := by
  induction n generalizing value with
  | zero => rfl
  | succ n ih =>
    simp only [outputUleb128, sizeofUleb128]
    split_ifs
    · rfl
    · rw [List.length_cons, ih]

theorem length_outputSleb128 (n : Nat) (value : Vma) :
    (outputSleb128 n value).length = sizeofSleb128 n value := by
  induction n generalizing value with
  | zero => rfl
  | succ n ih =>
    simp only [outputSleb128, sizeofSleb128]
    split_ifs
    · rfl
    · rw [List.length_cons, ih]

theorem length_outputLeb128 (value : Vma) (sign : Bool) :
    (outputLeb128 value sign).length = sizeofLeb128 value sign := by
  cases sign
  · exact length_outputUleb128 10 value
  · exact length_outputSleb128 10 value

/-- The kinds that `cvt_frag_to_fill` fills up to the next frag. -/
def RsType.pads (t : RsType) : Bool := t.isAlign || t.floats

/-- The padding in front of the next frag is a whole number of fills. -/
def FillsPadding (f nx : Frag σ) : Prop :=
  f.frType.pads = true → (nx.frAddress - f.frAddress - f.frFix) % f.frVar = 0

instance (f nx : Frag σ) : Decidable (FillsPadding f nx) :=
  inferInstanceAs (Decidable (f.frType.pads = true → _))

theorem cvtFragToFill_of_pads (hp : f.frType.pads = true) :
    cvtFragToFill env lay f next = fillToNext f next := by
  cases ht : f.frType <;> simp [cvtFragToFill, ht] <;>
    simp [ht, RsType.pads, RsType.isAlign, RsType.floats] at hp

theorem fillToNext_eq (h : fillToNext f next = some (f', msgs)) (hm : NoBad msgs) :
    ∃ nx, next = some nx ∧ f.frVar ≠ 0 ∧ f' = { f with
        frType := .fill, frOffset := (nx.frAddress - f.frAddress - f.frFix) / f.frVar } ∧
      0 ≤ f'.frOffset.toInt := by
  simp only [fillToNext, Option.bind_eq_bind, Option.bind_eq_some_iff] at h
  obtain ⟨nx, hnx, h⟩ := h
  split_ifs at h with hvar hneg <;> simp only [Option.some.injEq, Prod.mk.injEq] at h
  · exact absurd (h.2 ▸ hm) noBad_bad
  · obtain ⟨rfl, -⟩ := h
    exact ⟨nx, hnx, hvar, rfl, by simpa using hneg⟩

/-- The quotient loses what is left of the padding. -/
theorem udiv_mul_eq_iff {x y : Vma} : x / y * y = x ↔ x % y = 0 := by
  have hle : x.toNat / y.toNat * y.toNat ≤ x.toNat := Nat.div_mul_le_self ..
  have hmul : (x / y * y).toNat = x.toNat / y.toNat * y.toNat := by
    rw [BitVec.toNat_mul, BitVec.toNat_udiv, Nat.mod_eq_of_lt (by omega)]
  have hdiv := Nat.div_add_mod' x.toNat y.toNat
  have hzero : (0 : Vma).toNat = 0 := rfl
  rw [← BitVec.toNat_inj, ← BitVec.toNat_inj, hmul, BitVec.toNat_umod, hzero]
  omega

/-- What a frag becomes: a fill at the same address, which reaches the next frag exactly when its
padding is a whole number of fills. -/
structure Converted (f f' : Frag σ) (next : Option (Frag σ)) : Prop where
  address : f'.frAddress = f.frAddress
  fill : f'.frType = .fill
  count : 0 ≤ f'.frOffset.toInt
  reaches : ∀ nx ∈ next, Placed f nx →
    (nx.frAddress = f'.frAddress + f'.size ↔ FillsPadding f nx)

theorem cvtFragToFill_converted (h : cvtFragToFill env lay f next = some (f', msgs))
    (hm : NoBad msgs) (hv : f.Valid) (hl : ∀ nx ∈ next, Settled env lay f nx) :
    Converted f f' next := by
  by_cases hp : f.frType.pads = true
  · rw [cvtFragToFill_of_pads hp] at h
    obtain ⟨nx, rfl, hvar, rfl, hcount⟩ := fillToNext_eq h hm
    refine ⟨rfl, rfl, hcount, fun nx' hnx _ => ?_⟩
    obtain rfl := Option.some.inj hnx
    simp only [FillsPadding, hp, forall_const, ← udiv_mul_eq_iff, Frag.size]
    generalize (nx.frAddress - f.frAddress - f.frFix) / f.frVar * f.frVar = q
    constructor
    · intro he
      rw [he]
      ring
    · intro he
      rw [he]
      ring
  have hpads : ∀ nx, FillsPadding f nx := fun nx h => absurd h hp
  cases ht : f.frType with
  | align | alignCode | alignTest | org | space =>
    simp [ht, RsType.pads, RsType.isAlign, RsType.floats] at hp
  | fill =>
    simp only [cvtFragToFill, ht, Option.some.injEq, Prod.mk.injEq] at h
    obtain ⟨rfl, -⟩ := h
    refine ⟨rfl, ht, hv.count ht, fun nx _ hplaced => iff_of_true ?_ (hpads nx)⟩
    rw [hplaced (by simp [ht, RsType.floats])]
    simp [Frag.room, ht, Frag.size, add_assoc]
  | leb128 =>
    simp only [cvtFragToFill, ht, Option.bind_eq_bind, Option.bind_eq_some_iff, Option.some.injEq,
      Prod.mk.injEq] at h
    obtain ⟨s, hs, rfl, -⟩ := h
    refine ⟨rfl, rfl, by simp, fun nx hnx hplaced => iff_of_true ?_ (hpads nx)⟩
    obtain ⟨s', hs', hsize⟩ := (hl nx hnx).leb128 ht
    obtain rfl : s = s' := by simpa [hs] using hs'
    rw [hplaced (by simp [ht, RsType.floats])]
    simp [Frag.room, ht, Frag.size, hsize, Frag.leb128Size, length_outputLeb128, add_assoc]

/-- What `size_seg` makes of a chain: fills at the same addresses, which follow each other without
a gap exactly when every padding is a whole number of fills. -/
theorem cvtChain_converted (h : cvtChain env lay chain = some (chain', msgs)) (hm : NoBad msgs)
    (hv : ∀ f ∈ chain, f.Valid) (hp : chain.IsChain Placed)
    (hs : chain.IsChain (Settled env lay)) :
    chain'.map Frag.frAddress = chain.map Frag.frAddress ∧
      (∀ f ∈ chain', f.frType = .fill ∧ 0 ≤ f.frOffset.toInt) ∧
      ((chain'.IsChain fun f nx => nx.frAddress = f.frAddress + f.size) ↔
        chain.IsChain FillsPadding) := by
  induction chain generalizing chain' msgs with
  | nil =>
    simp only [cvtChain, Option.some.injEq, Prod.mk.injEq] at h
    simp [← h.1]
  | cons f rest ih =>
    simp only [cvtChain, Option.bind_eq_bind, Option.bind_eq_some_iff, Prod.exists,
      Option.pure_def, Option.some.injEq, Prod.mk.injEq] at h
    obtain ⟨f', ms, hf, rest', ms', hr, rfl, rfl⟩ := h
    obtain ⟨hm1, hm2⟩ := noBad_append.mp hm
    obtain ⟨hvf, hvr⟩ := List.forall_mem_cons.mp hv
    obtain ⟨hpf, hpr⟩ := List.isChain_cons.mp hp
    obtain ⟨hsf, hsr⟩ := List.isChain_cons.mp hs
    obtain ⟨haddr, hfill, hcount, hreach⟩ := cvtFragToFill_converted hf hm1 hvf hsf
    obtain ⟨hmap, hfills, hiff⟩ := ih hr hm2 hvr hpr hsr
    refine ⟨by simp [haddr, hmap], List.forall_mem_cons.mpr ⟨⟨hfill, hcount⟩, hfills⟩, ?_⟩
    rw [List.isChain_cons, List.isChain_cons, hiff]
    refine and_congr_left fun _ => ?_
    -- the next frag has the same address before and after its conversion
    have hhead := congrArg List.head? hmap
    simp only [List.head?_map] at hhead
    cases hx : rest.head? with
    | none => simp_all
    | some nx =>
      rw [hx, Option.map_some] at hhead
      obtain ⟨nx', hx', heq⟩ := Option.map_eq_some_iff.mp hhead
      simpa [hx', heq] using hreach nx hx (hpf nx hx)

theorem cvtChain_getLast (h : cvtChain env lay chain = some (chain', msgs)) {l : Frag σ}
    (hl : chain.getLast? = some l) (ht : l.frType = .fill) : chain'.getLast? = some l := by
  induction chain generalizing chain' msgs with
  | nil => simp at hl
  | cons f rest ih =>
    simp only [cvtChain, Option.bind_eq_bind, Option.bind_eq_some_iff, Prod.exists,
      Option.pure_def, Option.some.injEq, Prod.mk.injEq] at h
    obtain ⟨f', ms, hf, rest', ms', hr, rfl, rfl⟩ := h
    cases rest with
    | nil =>
      obtain rfl : f = l := by simpa using hl
      simp only [cvtFragToFill, ht, Option.some.injEq, Prod.mk.injEq] at hf
      simp only [cvtChain, Option.some.injEq, Prod.mk.injEq] at hr
      simp [← hf.1, ← hr.1]
    | cons r rest =>
      rw [List.getLast?_cons_cons] at hl
      simp [List.getLast?_cons, ih hr hl]

/-! Agreement. -/

/-- `write_contents` puts every frag at its address, the sum of the frags before it, and stops at
the size that `size_seg` has set. -/
def EmitsAtAddress (chain : List (Frag σ)) (set : Option Vma) : Prop :=
  ∃ out total, writeContents 0 chain = some (out, total) ∧
    out.map Emitted.start = chain.map Frag.frAddress ∧
    (∀ e ∈ out, ∀ w ∈ e.writes.head?, w.offset = e.start) ∧
    (∀ pre f post, chain = pre ++ f :: post → f.frAddress = (pre.map Frag.size).sum) ∧
    ∀ size ∈ set, total = size

/-- The frag behind an alignment is aligned, or there is no padding where the maximum does not
allow it. -/
def AlignsNext (f nx : Frag σ) : Prop :=
  f.frType.isAlign = true → nx.frAddress.toNat % 2 ^ f.frOffset.toNat = 0 ∨
    f.frSubtype ≠ 0 ∧
      f.frSubtype.setWidth 64 < relaxAlign (f.frAddress + f.frFix) f.frOffset.toNat ∧
      nx.frAddress = f.frAddress + f.frFix

/-- Relaxation, which leaves `chain`, and emission of the `sized` section agree on addresses. -/
structure AddressesAgree (env : SymEnv σ) (lay : Layout) (chain : List (Frag σ)) (sized : Seg σ)
    (set : Option Vma) : Prop where
  emits : sized.hasContents = true → EmitsAtAddress sized.chain set
  aligned : chain.IsChain AlignsNext
  orgs : chain.IsChain fun f nx => f.frType = .org → nx.frAddress = f.orgTarget env lay

theorem emitsAtAddress_iff {set : Option Vma}
    (hf : ∀ f ∈ chain, f.frType = .fill ∧ 0 ≤ f.frOffset.toInt)
    (hh : ∀ f ∈ chain.head?, f.frAddress = 0)
    (hl : ∃ l, chain.getLast? = some l ∧ ∀ size ∈ set, l.frAddress + l.size = size) :
    EmitsAtAddress chain set ↔
      chain.IsChain fun f nx => nx.frAddress = f.frAddress + f.size := by
  obtain ⟨out, hout, hstart, hheads⟩ := writeContents_starts 0 hf
  constructor
  · rintro ⟨out', total, hout', hstart', -⟩
    obtain ⟨rfl, -⟩ := Prod.mk.inj (Option.some.inj (hout.symm.trans hout'))
    exact (starts_eq_map_iff.mp (hstart.symm.trans hstart')).2
  · intro hc
    have hagree : starts Frag.size 0 chain = chain.map Frag.frAddress :=
      starts_eq_map_iff.mpr ⟨hh, hc⟩
    obtain ⟨l, hlast, hsize⟩ := hl
    refine ⟨out, _, hout, hstart.trans hagree, hheads, ?_, fun size hset => ?_⟩
    · rintro pre f post rfl
      simpa using addr_eq_sum hagree
    · rw [end_eq_last hagree hlast, hsize size hset]

/-- Bits below the shift are clear. -/
theorem and_shiftLeft_mod (x y : Vma) (n : Nat) : (x &&& y <<< n).toNat % 2 ^ n = 0 := by
  apply Nat.eq_of_testBit_eq
  intro i
  rw [Nat.testBit_mod_two_pow, BitVec.testBit_toNat, BitVec.getLsbD_and, BitVec.getLsbD_shiftLeft]
  by_cases hi : i < n <;> simp [hi]

theorem add_relaxAlign_mod (address : Vma) (n : Nat) :
    (address + relaxAlign address n).toNat % 2 ^ n = 0 := by
  have hsum : address + relaxAlign address n =
      (address + ~~~((-1 : Vma) <<< n)) &&& (-1 : Vma) <<< n := by
    simp [relaxAlign]
  rw [hsum]
  exact and_shiftLeft_mod ..

theorem alignsNext_of_placed (hp : Placed f nx) : AlignsNext f nx := by
  intro hf
  obtain ⟨-, -, -, hfloats⟩ := RsType.ne_of_isAlign hf
  have hnx := hp hfloats
  rw [room_of_isAlign hf] at hnx
  by_cases hmax : f.frSubtype ≠ 0 ∧
      f.frSubtype.setWidth 64 < relaxAlign (f.frAddress + f.frFix) f.frOffset.toNat
  · rw [Frag.alignPad, if_pos hmax, add_zero] at hnx
    exact .inr ⟨hmax.1, hmax.2, hnx⟩
  · rw [Frag.alignPad, if_neg hmax] at hnx
    exact .inl (hnx ▸ add_relaxAlign_mod ..)

/-- A section that `write_contents` will write. -/
def Seg.isWritten (s : Seg σ) : Bool :=
  s.hasContents ||
    (((s.chain.getLast?).map fun l => l.frAddress + l.frFix).getD 0 != 0 && !s.bss)

theorem sizeSeg_eq {s sized : Seg σ} {set : Option Vma} {l : Frag σ}
    (h : sizeSeg env lay s = some (sized, set, msgs)) (hl : s.chain.getLast? = some l)
    (hc : l.Closes) :
    cvtChain env lay s.chain = some (sized.chain, msgs) ∧ sized.chain.getLast? = some l ∧
      sized.hasContents = s.isWritten ∧ ∀ size ∈ set, l.frAddress + l.frFix = size := by
  simp only [sizeSeg, Option.bind_eq_bind, Option.bind_eq_some_iff, Prod.exists] at h
  obtain ⟨chain', ms, hcvt, last, hlast, h⟩ := h
  have hkeep := cvtChain_getLast hcvt hl hc.1
  obtain rfl : last = l := Option.some.inj (hlast.symm.trans hkeep)
  split_ifs at h with hskip <;>
    simp only [Option.pure_def, Option.some.injEq, Prod.mk.injEq] at h <;>
    obtain ⟨rfl, rfl, rfl⟩ := h
  · exact ⟨hcvt, hkeep, by simp [Seg.isWritten, hskip.2.2], by simp⟩
  · exact ⟨hcvt, hkeep, by simp [Seg.isWritten, hl], by simp⟩

theorem Laid.agree_iff_fillsPadding {s sized : Seg σ} {set : Option Vma} (hlaid : Laid s.chain)
    (hset : s.chain.IsChain (Settled env lay))
    (hz : sizeSeg env lay s = some (sized, set, msgs)) (hm : NoBad msgs) :
    AddressesAgree env lay s.chain sized set ↔
      (s.isWritten = true → s.chain.IsChain FillsPadding) := by
  obtain ⟨l, hl, hcl⟩ := hlaid.closes
  obtain ⟨hcvt, hkeep, hcontents, hsize⟩ := sizeSeg_eq hz hl hcl
  obtain ⟨hmap, hfills, hiff⟩ := cvtChain_converted hcvt hm hlaid.valid hlaid.placed hset
  have hhead : ∀ f ∈ sized.chain.head?, f.frAddress = 0 := by
    intro f hf
    have hfirst := congrArg List.head? hmap
    simp only [List.head?_map] at hfirst
    rw [Option.mem_def.mp hf, Option.map_some] at hfirst
    obtain ⟨f', hf', heq⟩ := Option.map_eq_some_iff.mp hfirst.symm
    exact heq ▸ hlaid.head f' hf'
  have hend : ∀ size ∈ set, l.frAddress + l.size = size := by
    intro size hsz
    rw [← hsize size hsz, Frag.size, hcl.2, zero_mul, add_zero]
  have hemits := emitsAtAddress_iff hfills hhead ⟨l, hkeep, hend⟩
  constructor
  · intro ha hw
    exact hiff.mp (hemits.mp (ha.emits (hcontents.trans hw)))
  · intro hw
    refine ⟨fun hc => hemits.mpr (hiff.mpr (hw (hcontents.symm.trans hc))), ?_, ?_⟩
    · exact hlaid.placed.imp fun _ _ => alignsNext_of_placed
    · exact hset.imp fun _ _ hab => hab.org

/-- Relaxation and emission agree on the addresses of a section exactly when every padding that
is left to `cvt_frag_to_fill` is a whole number of fills. The alignments and the targets of `.org`
are right in any case. -/
theorem addressesAgree_iff {fuel : Nat} {segs segs' : List (Seg σ)} {s sized : Seg σ}
    {set : Option Vma} {msgs' : List Msg}
    (h : relaxRounds env fuel 0 segs = some (segs', msgs)) (hm : NoBad msgs)
    (hr : ∀ s ∈ segs, Ready s.chain) (hs : s ∈ segs')
    (hz : sizeSeg env (layoutOf segs') s = some (sized, set, msgs')) (hm' : NoBad msgs') :
    AddressesAgree env (layoutOf segs') s.chain sized set ↔
      (s.isWritten = true → s.chain.IsChain FillsPadding) := by
  obtain ⟨hlaid, hset⟩ := relaxRounds_laid h hm hr s hs
  exact hlaid.agree_iff_fillsPadding hset hz hm'

/-- The value of `end - start`, where `end` is in the frag behind the space. -/
def endMinusStart : SymEnv Unit where
  value _ lay := lay 3 - lay 0
  isAbsolute _ := true

def sampleFrag (id : Nat) (frType : RsType) (frFix frVar frOffset : Vma) : Frag Unit where
  id := id
  frType := frType
  frAddress := 0
  lastFrAddress := 0
  frFix := frFix
  frVar := frVar
  frOffset := frOffset
  frSubtype := 0
  frSymbol := if frType = .leb128 then some () else none
  frLiteral _ := 0

/-- `start:`, `.byte 0`, `.uleb128 end - start`, an alignment to 4 with a fill of `width` bytes,
`.space 200` and `end:`, with the two frags of `subsegs_finish` behind. -/
def sampleSection (width : Vma) : Seg Unit where
  chain :=
    [ sampleFrag 0 .leb128 1 0 0,
      sampleFrag 1 .align 0 width 2,
      sampleFrag 2 .fill 0 1 200,
      sampleFrag 3 .align 0 1 0,
      sampleFrag 4 .fill 0 0 0 ]
  bss := false
  hasContents := false
  size := 0

theorem sampleSection_ready (width : Vma) (hw : 0 ≤ width.toInt) :
    Ready (sampleSection width).chain where
  valid := by
    simp only [sampleSection, List.forall_mem_cons, List.not_mem_nil, false_imp_iff, implies_true,
      and_true]
    refine ⟨?_, ⟨hw, by simp [sampleFrag], by simp [sampleFrag]⟩, ?_, ?_, ?_⟩ <;>
      exact ⟨by decide, by decide, by decide⟩
  closes := ⟨sampleFrag 4 .fill 0 0 0, rfl, rfl, rfl⟩
  remembered := by simp [sampleSection, sampleFrag]

theorem addressesAgree_balign :
    ∃ r ∈ relaxRounds endMinusStart 2 0 [sampleSection 1], ∃ s ∈ r.1,
      ∃ z ∈ sizeSeg endMinusStart (layoutOf r.1) s,
        AddressesAgree endMinusStart (layoutOf r.1) s.chain z.1 z.2.1 := by
  have hrun : ∃ r ∈ relaxRounds endMinusStart 2 0 [sampleSection 1], NoBad r.2 ∧ ∃ s ∈ r.1,
      ∃ z ∈ sizeSeg endMinusStart (layoutOf r.1) s, NoBad z.2.2 ∧
        s.chain.IsChain FillsPadding := by decide +kernel
  obtain ⟨r, hr, hm, s, hs, z, hz, hm', hfill⟩ := hrun
  refine ⟨r, hr, s, hs, z, hz, (addressesAgree_iff hr hm ?_ hs hz hm').mpr fun _ => hfill⟩
  simpa using sampleSection_ready 1 (by decide)

/-- `.balignw 4`: the leb128 grows by a byte, the padding shrinks from 2 to 1, and no fill is
written in front of the space. -/
theorem balignw_misses_address :
    ∃ r ∈ relaxRounds endMinusStart 2 0 [sampleSection 2], NoBad r.2 ∧
      Ready (sampleSection 2).chain ∧ ∃ s ∈ r.1,
      ∃ z ∈ sizeSeg endMinusStart (layoutOf r.1) s, NoBad z.2.2 ∧
        ¬ AddressesAgree endMinusStart (layoutOf r.1) s.chain z.1 z.2.1 := by
  have hrun : ∃ r ∈ relaxRounds endMinusStart 2 0 [sampleSection 2], NoBad r.2 ∧ ∃ s ∈ r.1,
      ∃ z ∈ sizeSeg endMinusStart (layoutOf r.1) s, NoBad z.2.2 ∧ s.isWritten = true ∧
        ¬ s.chain.IsChain FillsPadding := by decide +kernel
  obtain ⟨r, hr, hm, s, hs, z, hz, hm', hw, hfill⟩ := hrun
  have hready := sampleSection_ready 2 (by decide)
  obtain ⟨hlaid, hset⟩ := relaxRounds_laid hr hm (by simpa using hready) s hs
  refine ⟨r, hr, hm, hready, s, hs, z, hz, hm', fun ha => hfill ?_⟩
  exact (hlaid.agree_iff_fillsPadding hset hz hm').mp ha hw

end FusionBinutils.Gas
