import FusionBinutils.Lib.Hex
import FusionBinutils.Lib.Memory
import FusionBinutils.Opcode.Encoding
import Mathlib.Data.List.Sort

/-! What the writers and readers of the hexadecimal object formats share (bfd/ihex.c, bfd/srec.c):
the data held back until the file is written, and the sections found in a file. -/
namespace FusionBinutils.Bfd.HexFile
open Memory (Block)

/-- A call of `bfd_set_section_contents`: what the writer looks at of the section, the offset and the
bytes. -/
structure SetCall where
  lma : Nat
  alloc : Bool
  load : Bool
  offset : Nat
  contents : List BfdByte
  deriving DecidableEq, Repr

/-- There is something to write, in a section that is loaded. -/
def SetCall.loadable (c : SetCall) : Bool := !c.contents.isEmpty && c.alloc && c.load

/-- The element of the data list that a call makes. -/
def SetCall.block (c : SetCall) : Block BfdByte := ⟨(c.lma + c.offset) % 2 ^ 64, c.contents⟩

/-- The search from the head of the list. -/
def insertBefore : List (Block BfdByte) → Block BfdByte → List (Block BfdByte)
  | [], n => [n]
  | x :: xs, n => if x.start < n.start then x :: insertBefore xs n else n :: x :: xs

/-- "Sort the records by address. Optimize for the common case of adding a record to the end of the
list." -/
def insertData (l : List (Block BfdByte)) (n : Block BfdByte) : List (Block BfdByte) :=
  match l.getLast? with
  | some tail => if tail.start ≤ n.start then l ++ [n] else insertBefore l n
  | none => insertBefore l n

/-- The list after a call. -/
def setContents (l : List (Block BfdByte)) (c : SetCall) : List (Block BfdByte) :=
  if c.loadable then insertData l c.block else l

/-- The list after some calls. -/
def dataList (calls : List SetCall) : List (Block BfdByte) := calls.foldl setContents []

/-- What the calls ask to be in memory. -/
def image (calls : List SetCall) : List (Block BfdByte) :=
  (calls.filter SetCall.loadable).map SetCall.block

/-- A section found in a file: its address, its size and where its first record starts. -/
structure Sec where
  vma : Nat
  size : Nat
  filepos : Nat
  deriving DecidableEq, Repr

/-- `hex_value`, which is 99 for what is no digit. -/
def hexValue (c : Char) : Nat := (Hex.value c).getD 99

/-- `HEX2` of pairs of characters. -/
def rawBytes : List Char → List BfdByte
  | hi :: lo :: rest => .ofNat 8 (hexValue hi * 16 + hexValue lo) :: rawBytes rest
  | _ => []

theorem length_rawBytes (p : List Char) : (rawBytes p).length = p.length / 2 := by
  induction p using rawBytes.induct with
  | case1 hi lo rest ih =>
    rw [rawBytes, List.length_cons, ih, List.length_cons, List.length_cons]
    omega
  | case2 p hp =>
    rcases p with - | ⟨c, - | ⟨d, p⟩⟩
    · rfl
    · simp [rawBytes]
    · exact absurd rfl (hp c d p)

theorem rawBytes_text (bs : List BfdByte) : rawBytes (Hex.text bs) = bs := by
  induction bs with
  | nil => rfl
  | cons b bs ih =>
    have hb : BitVec.ofNat 8 (b.toNat / 16 % 16 * 16 + b.toNat % 16) = b := by
      have hlt := b.isLt
      have hsum : b.toNat / 16 % 16 * 16 + b.toNat % 16 = b.toNat := by omega
      rw [hsum, BitVec.ofNat_toNat, BitVec.setWidth_eq]
    rw [Hex.text, List.flatMap_cons, ← Hex.text]
    simp [Hex.two, rawBytes, hexValue, Hex.value_digit, ih, hb]

/-! The data list is the image in the order of the addresses. -/

variable {l : List (Block BfdByte)} {n : Block BfdByte} {calls : List SetCall}

/-- In the order of their addresses. -/
def Ordered (l : List (Block BfdByte)) : Prop := l.Pairwise fun x y => x.start ≤ y.start

theorem insertBefore_perm (l : List (Block BfdByte)) (n : Block BfdByte) :
    (insertBefore l n).Perm (n :: l) := by
  induction l with
  | nil => exact .refl _
  | cons x xs ih =>
    rw [insertBefore]
    split
    · exact (ih.cons x).trans (.swap _ _ _)
    · exact .refl _

theorem insertBefore_ordered (h : Ordered l) : Ordered (insertBefore l n) := by
  induction l with
  | nil => exact List.pairwise_singleton _ _
  | cons x xs ih =>
    obtain ⟨hx, hxs⟩ := List.pairwise_cons.mp h
    rw [insertBefore]
    split
    · next hlt =>
      refine List.pairwise_cons.mpr ⟨fun y hy => ?_, ih hxs⟩
      rcases List.mem_cons.mp ((insertBefore_perm xs n).mem_iff.mp hy) with rfl | hy
      · exact hlt.le
      · exact hx y hy
    · next hge =>
      refine List.pairwise_cons.mpr ⟨fun y hy => ?_, h⟩
      rcases List.mem_cons.mp hy with rfl | hy
      · omega
      · exact (Nat.le_of_not_lt hge).trans (hx y hy)

theorem insertData_perm (l : List (Block BfdByte)) (n : Block BfdByte) :
    (insertData l n).Perm (n :: l) := by
  rw [insertData]
  split
  · split
    · exact List.perm_append_singleton n l
    · exact insertBefore_perm l n
  · exact insertBefore_perm l n

theorem insertData_ordered (h : Ordered l) : Ordered (insertData l n) := by
  rw [insertData]
  split
  · next tail htail =>
    split
    · next hle =>
      obtain ⟨ys, rfl⟩ := List.getLast?_eq_some_iff.mp htail
      refine List.pairwise_append.mpr ⟨h, List.pairwise_singleton _ _, fun x hx y hy => ?_⟩
      rw [List.mem_singleton.mp hy]
      rcases List.mem_append.mp hx with hx | hx
      · exact ((List.pairwise_append.mp h).2.2 x hx tail (by simp)).trans hle
      · rwa [List.mem_singleton.mp hx]
    · exact insertBefore_ordered h
  · exact insertBefore_ordered h

theorem foldl_setContents (h : Ordered l) :
    Ordered (calls.foldl setContents l) ∧ (calls.foldl setContents l).Perm (image calls ++ l) := by
  induction calls generalizing l with
  | nil => exact ⟨h, .refl _⟩
  | cons c calls ih =>
    rw [List.foldl_cons, setContents]
    by_cases hc : c.loadable
    · rw [if_pos hc]
      obtain ⟨hord, hperm⟩ := ih (l := insertData l c.block) (insertData_ordered h)
      refine ⟨hord, hperm.trans ?_⟩
      have himage : image (c :: calls) = c.block :: image calls := by simp [image, hc]
      rw [himage]
      exact ((insertData_perm l c.block).append_left _).trans List.perm_middle
    · rw [if_neg hc]
      have himage : image (c :: calls) = image calls := by simp [image, hc]
      rw [himage]
      exact ih h

theorem dataList_ordered (calls : List SetCall) : Ordered (dataList calls) :=
  (foldl_setContents List.Pairwise.nil).1

theorem dataList_perm (calls : List SetCall) : (dataList calls).Perm (image calls) := by
  have h : (dataList calls).Perm (image calls ++ []) := (foldl_setContents List.Pairwise.nil).2
  rwa [List.append_nil] at h

theorem mem_image {blk : Block BfdByte} (h : blk ∈ image calls) : blk.cells ≠ [] := by
  obtain ⟨c, hc, rfl⟩ := List.mem_map.mp h
  have hload := (List.mem_filter.mp hc).2
  simp only [SetCall.loadable, Bool.and_eq_true] at hload
  simpa [SetCall.block] using hload.1.1

theorem mem_dataList {blk : Block BfdByte} : blk ∈ dataList calls ↔ blk ∈ image calls :=
  (dataList_perm calls).mem_iff

/-- Each element of the list lies behind the ones before it. -/
theorem dataList_pairwise (h : (image calls).Pairwise Memory.Apart) :
    (dataList calls).Pairwise fun x y => x.stop ≤ y.start := by
  have hsymm : ∀ {x y : Block BfdByte}, Memory.Apart x y → Memory.Apart y x := Or.symm
  have hapart := ((dataList_perm calls).pairwise_iff hsymm).mpr h
  refine ((dataList_ordered calls).and hapart).imp_of_mem fun {x y} hx hy hxy => ?_
  have hne := List.length_pos_iff.mpr (mem_image (mem_dataList.mp hy))
  rcases hxy.2 with hle | hle
  · exact hle
  · have hxy' := hxy.1
    simp only [Block.stop] at hle
    omega

end FusionBinutils.Bfd.HexFile
