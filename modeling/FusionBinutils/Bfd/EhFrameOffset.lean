import FusionBinutils.Bfd.EhFrameOrigin
import FusionBinutils.Bfd.EhFrameParsed
import FusionBinutils.Lib.Bisect

/-! Where `_bfd_elf_eh_frame_section_offset` says that the fields of an entry are, and where they
are. -/
namespace FusionBinutils.Bfd.EhFrame

open Buffer

section offset
variable (cieInf : Entry → Option OutCie)

/-- On which side of an entry an offset is. -/
def compareOffset (offset : Nat) (x : Placed) : Ordering :=
  if offset < x.entry.offset then .lt
  else if x.entry.offset + x.entry.size ≤ offset then .gt
  else .eq

/-- Whether a pointer becomes relative, so that it needs no relocation at run time. -/
def pointerRelative (e : Entry) (offset : Nat) : Option Bool :=
  match e.kind with
  | .cie u _ =>
    some (u.makePerEncodingRelative && offset = e.offset + 8 + u.personalityOffset.toNat)
  | .fde _ =>
    if e.makeRelative ∧ offset = e.offset + 8 then some true
    else (cieInf e).map fun cie =>
      cie.makeLsdaRelative && offset = e.offset + 8 + e.lsdaOffset.toNat

/-- The same of an operand of `DW_CFA_set_loc`. The first one is looked at before the others. -/
def operandRelative (e : Entry) (offset : Nat) : Bool :=
  match e.setLoc with
  | some (first :: rest) => e.makeRelative && e.offset + 8 + first ≤ offset &&
      (first :: rest).any fun loc => offset = e.offset + 8 + loc
  | _ => false

/-- What becomes of an offset in a kept entry; `none` where there is no CIE to be asked. -/
def entryOffset (x : Placed) (offset : Nat) : Option (BitVec 64) :=
  (pointerRelative cieInf x.entry offset).map fun relative =>
    if relative || operandRelative x.entry offset then -2
    else .ofNat 64 offset + .ofNat 64 x.newOffset - .ofNat 64 x.entry.offset +
      .ofNat 64 (x.entry.extraStringBytes + x.entry.extraDataBytes)

/-- `_bfd_elf_eh_frame_section_offset` -/
def sectionOffset (xs : List Placed) (rawSize size offset : Nat) : Option (BitVec 64) :=
  if rawSize ≤ offset then some (.ofNat 64 offset - .ofNat 64 rawSize + .ofNat 64 size)
  else do
    let mid ← Bisect.search (fun i => xs[i]?.map (compareOffset offset)) xs.length 0 xs.length
      (some 0)
    let x ← xs[← mid]?
    if x.entry.removed then some (-1) else entryOffset cieInf x offset

end offset

/-- What `_bfd_elf_discard_section_eh_frame` makes of an entry. A CIE may learn that pointers become
relative, and a kept FDE has a CIE with the encodings of its own one. -/
structure Discarded (cieInf : Entry → Option OutCie) (e e' : Entry) : Prop where
  same : e' = { e with removed := e'.removed, kind := e'.kind }
  cie : ∀ u full, e.kind = .cie u full → ∃ u', e'.kind = .cie u' full ∧
    u' = { u with
      makeLsdaRelative := u'.makeLsdaRelative
      makePerEncodingRelative := u'.makePerEncodingRelative
      perEncodingRelative := u'.perEncodingRelative }
  fde : ∀ i, e.kind = .fde i → ∃ i', e'.kind = .fde i'
  found : ∀ i, e.kind = .fde i → e.size ≠ 4 → e'.removed = false → ∃ cie, cieInf e' = some cie ∧
    (cie.makeLsdaRelative → application e.lsdaEncoding = peAbsptr)

/-- A section that has been accepted, with what is discarded of it and how it is to be written. -/
structure Edited (info : LinkInfo) where
  sec : EhSec
  rels : Rels
  rsec : Rela → Option Nat
  parsed : List Entry
  accepted : parseEhFrame info sec rels rsec = some parsed
  entries : List Entry
  cieInf : Entry → Option OutCie
  discarded : List.Forall₂ (Discarded cieInf) parsed entries
  out : OutSec
  ptrSize : out.ptrSize = sec.ptrSize
  addressSize : AddressSize sec.ptrSize
  relocatable : out.relocatable = info.relocatable

namespace Edited
variable {info : LinkInfo}

def placed (s : Edited info) : List Placed := EhFrame.placed s.sec.ptrSize s.entries

def size (s : Edited info) : Nat := secSize s.sec.ptrSize s.entries

def write (s : Edited info) (m : Contents) : Option Contents :=
  writeSection s.out s.cieInf s.entries m

def sectionOffset (s : Edited info) (offset : Nat) : Option (BitVec 64) :=
  EhFrame.sectionOffset s.cieInf s.placed s.sec.contents.length s.size offset

end Edited

/-- The fields that relocations are for. -/
inductive FieldKind where
  | personality
  | initialLocation
  | addressRange
  | lsda
  | setLoc

/-- The fields of an entry, each with its offset and its width. -/
inductive IsField {info : LinkInfo} (s : Edited info) (e : Entry) : FieldKind → Nat → Nat → Prop where
  | personality {u : CieInf} {full : Cie} {r : Rela} (hk : e.kind = .cie u full)
      (hper : full.perEncoding ≠ peOmit) (hr : s.rels[full.personality]? = some r) :
      IsField s e .personality r.offset (peWidth full.perEncoding s.sec.ptrSize)
  | initialLocation {i : Option Nat} (hk : e.kind = .fde i) (hs : e.size ≠ 4) :
      IsField s e .initialLocation (e.offset + 8) (peWidth e.fdeEncoding s.sec.ptrSize)
  | addressRange {i : Option Nat} (hk : e.kind = .fde i) (hs : e.size ≠ 4) :
      IsField s e .addressRange (e.offset + 8 + peWidth e.fdeEncoding s.sec.ptrSize)
        (peWidth e.fdeEncoding s.sec.ptrSize)
  /-- The pointer follows the size of the augmentation data, if there is one. -/
  | lsda {i : Option Nat} {place : Nat} (hk : e.kind = .fde i) (hs : e.size ≠ 4)
      (hlsda : e.lsdaEncoding ≠ peOmit)
      (hplace : place = e.offset + 8 + 2 * peWidth e.fdeEncoding s.sec.ptrSize ∨
        (Bytes.mk s.sec.contents (e.offset + e.size)).skipLeb128
          (e.offset + 8 + 2 * peWidth e.fdeEncoding s.sec.ptrSize) = some place)
      (hin : place + peWidth e.lsdaEncoding s.sec.ptrSize ≤ e.offset + e.size) :
      IsField s e .lsda place (peWidth e.lsdaEncoding s.sec.ptrSize)
  /-- The operands among the instructions from some place behind the address range on. -/
  | setLoc {i : Option Nat} {insns loc : Nat} {locs : List Nat} (hk : e.kind = .fde i)
      (hs : e.size ≠ 4) (hinsns : e.offset + 8 + 2 * peWidth e.fdeEncoding s.sec.ptrSize ≤ insns)
      (hlocs : setLocsFrom (Bytes.mk s.sec.contents (e.offset + e.size))
        (peWidth e.fdeEncoding s.sec.ptrSize) (e.offset + 8) insns = some locs) (hloc : loc ∈ locs)
      (hin : e.offset + 8 + loc + peWidth e.fdeEncoding s.sec.ptrSize ≤ e.offset + e.size) :
      IsField s e .setLoc (e.offset + 8 + loc) (peWidth e.fdeEncoding s.sec.ptrSize)

/-- If the offset of a field is mapped to an offset, the field is there in the output. -/
def Mapped {info : LinkInfo} (s : Edited info) (out : Contents) (offset width : Nat) : Prop :=
  ∀ v, s.sectionOffset offset = some v → v ≠ -1 → v ≠ -2 →
    ∀ k < width, (out (v.toNat + k)).origin = some (offset + k)

/-- The writer inserts bytes behind a field, which the offset counts as inserted before it: the
augmentation size of an FDE behind its address range, or the data of new letters behind the
personality pointer that the writer has mistaken for a number. -/
def Passed {info : LinkInfo} (s : Edited info) (m : Contents) (x : Placed) :
    FieldKind → Nat → Prop
  | .addressRange, _ => x.entry.addAugmentationSize
  | .personality, offset => ∃ u full m₁ stop, x.entry.kind = .cie u full ∧ 0 < growth x u ∧
      ¬ (u.makePerEncodingRelative ∧ offset = x.entry.offset + 8 + u.personalityOffset.toNat) ∧
      Reaches s.out s.cieInf s.size x s.placed (movePasses s.placed m) m₁ ∧
      walkEnd s.out m₁ x.newOffset (x.newOffset + x.entry.size) = some stop ∧
      x.newOffset + (offset - x.entry.offset) < stop
  | _, _ => False

/-! What is discarded is no less well formed. -/

section discarded
variable {info : LinkInfo} {sec : EhSec} {rels : Rels} {cieInf : Entry → Option OutCie}
  {e e' : Entry} {l l' : List Entry}

theorem Discarded.range (h : Discarded cieInf e e') : (e'.offset, e'.size) = (e.offset, e.size) := by
  rw [h.same]

theorem Discarded.parsed (h : Discarded cieInf e e') (hp : Parsed info sec rels e) :
    Parsed info sec rels e' := by
  obtain ⟨sized, added, letter, personality, header, range, setLoc⟩ := hp
  have hkind : ∀ u' full, e'.kind = .cie u' full → ∃ u, e.kind = .cie u full ∧
      u'.addFdeEncoding = u.addFdeEncoding := by
    intro u' full hk'
    cases hk : e.kind with
    | cie u full' =>
      obtain ⟨u'', hk'', hu⟩ := h.cie u full' hk
      rw [hk'] at hk''
      cases hk''
      exact ⟨u, rfl, by rw [hu]⟩
    | fde i =>
      obtain ⟨i', hk''⟩ := h.fde i hk
      rw [hk'] at hk''
      cases hk''
  have hfde : ∀ i', e'.kind = .fde i' → ∃ i, e.kind = .fde i := by
    intro i' hk'
    cases hk : e.kind with
    | cie u full =>
      obtain ⟨u', hk'', -⟩ := h.cie u full hk
      rw [hk'] at hk''
      cases hk''
    | fde i => exact ⟨i, rfl⟩
  have hsame := h.same
  refine ⟨?_, ?_, ?_, ?_, ?_, ?_, ?_⟩
  · rw [hsame]
    exact sized
  · rw [hsame]
    exact added
  · intro u' full hk'
    obtain ⟨u, hk, hadd⟩ := hkind u' full hk'
    rw [hadd, hsame]
    exact letter u full hk
  · intro u' full hk' hper
    obtain ⟨u, hk, -⟩ := hkind u' full hk'
    rw [hsame]
    exact personality u full hk hper
  · intro u' full r hk' hper hr hra
    obtain ⟨u, hk, -⟩ := hkind u' full hk'
    rw [hsame]
    exact header u full r hk hper hr hra
  · intro i' hk'
    obtain ⟨i, hk⟩ := hfde i' hk'
    rw [hsame]
    exact range i hk
  · rw [hsame]
    exact setLoc

theorem discarded_mem (h : List.Forall₂ (Discarded cieInf) l l') (he : e' ∈ l') :
    ∃ e ∈ l, Discarded cieInf e e' := by
  induction h with
  | nil => cases he
  | @cons a a' l l' ha _ ih =>
    rcases List.mem_cons.mp he with rfl | he
    · exact ⟨a, List.mem_cons_self, ha⟩
    · obtain ⟨e, hmem, hd⟩ := ih he
      exact ⟨e, List.mem_cons_of_mem a hmem, hd⟩

theorem discarded_ranges (h : List.Forall₂ (Discarded cieInf) l l') :
    (l'.map fun e => (e.offset, e.size)) = l.map fun e => (e.offset, e.size) := by
  induction h with
  | nil => rfl
  | cons ha _ ih => rw [List.map_cons, List.map_cons, ha.range, ih]

/-- The entries are still apart, and still come before a terminator. -/
theorem discarded_pairwise {r : Nat × Nat → Nat × Nat → Prop}
    (h : List.Forall₂ (Discarded cieInf) l l')
    (hl : l.Pairwise fun x y => r (x.offset, x.size) (y.offset, y.size)) :
    l'.Pairwise fun x y => r (x.offset, x.size) (y.offset, y.size) := by
  have hmap := List.pairwise_map.mpr hl
  rw [← discarded_ranges h] at hmap
  exact List.pairwise_map.mp hmap

end discarded

namespace Edited
variable {info : LinkInfo} {s : Edited info} {e : Entry} {x : Placed} {offset width : Nat}
  {u : CieInf} {full : Cie} {m out : Contents}

theorem parsed_of_mem (he : e ∈ s.entries) : Parsed info s.sec s.rels e := by
  obtain ⟨e', he', hd⟩ := discarded_mem s.discarded he
  exact hd.parsed ((parseEhFrame_spec s.accepted).2.1 e' he')

theorem apart (s : Edited info) : Apart s.entries :=
  discarded_pairwise (r := fun x y => x.1 + x.2 ≤ y.1) s.discarded
    (parseEhFrame_spec s.accepted).2.2.1.apart

theorem bound_of_mem (he : e ∈ s.entries) : e.offset + e.size ≤ s.sec.contents.length := by
  obtain ⟨e', he', hd⟩ := discarded_mem s.discarded he
  obtain ⟨hoffset, hsize⟩ := Prod.mk.inj hd.range
  rw [hoffset, hsize]
  exact (parseEhFrame_spec s.accepted).2.2.2 e' he'

/-- An FDE has got a CIE that agrees with it. -/
theorem found_of_mem {i : Option Nat} (he : e ∈ s.entries) (hk : e.kind = .fde i)
    (hs : e.size ≠ 4) (hr : e.removed = false) : ∃ cie, s.cieInf e = some cie ∧
      (cie.makeLsdaRelative → application e.lsdaEncoding = peAbsptr) := by
  obtain ⟨e', he', hd⟩ := discarded_mem s.discarded he
  obtain ⟨i', hk'⟩ : ∃ i', e'.kind = .fde i' := by
    cases hk' : e'.kind with
    | cie u full =>
      obtain ⟨u', hu, -⟩ := hd.cie u full hk'
      rw [hk] at hu
      cases hu
    | fde i' => exact ⟨i', rfl⟩
  obtain ⟨-, hsize⟩ := Prod.mk.inj hd.range
  have hlsda : e.lsdaEncoding = e'.lsdaEncoding := by rw [hd.same]
  rw [hlsda]
  exact hd.found i' hk' (hsize ▸ hs) hr

/-- The search finds the entry that an offset is in. -/
theorem sectionOffset_of_mem (hx : x ∈ s.placed) (hlow : x.entry.offset ≤ offset)
    (hhigh : offset < x.entry.offset + x.entry.size) : s.sectionOffset offset =
      if x.entry.removed then some (-1) else entryOffset s.cieInf x offset := by
  obtain ⟨t, ht, hxt⟩ := List.getElem_of_mem hx
  have hbound := bound_of_mem (entry_mem hx)
  have hpair : ∀ (i j : Nat) (hi : i < s.placed.length) (hj : j < s.placed.length), i < j →
      s.placed[i].entry.offset + s.placed[i].entry.size ≤ s.placed[j].entry.offset :=
    List.pairwise_iff_getElem.mp (pairwise_placed s.apart)
  have hfound : Bisect.search (fun i => s.placed[i]?.map (compareOffset offset)) s.placed.length 0
      s.placed.length (some 0) = some (some t) := by
    refine Bisect.search_found (Nat.zero_le t) ht ?_ ?_ ?_ (by omega)
    · rw [List.getElem?_eq_getElem ht, hxt, Option.map_some, compareOffset, if_neg (by omega),
        if_neg (by omega)]
    · intro i _ hi
      have hbefore := hpair i t (by omega) ht hi
      rw [hxt] at hbefore
      rw [List.getElem?_eq_getElem (by omega), Option.map_some, compareOffset, if_neg (by omega),
        if_pos (by omega)]
    · intro i hi hilt
      have hafter := hpair t i ht hilt hi
      rw [hxt] at hafter
      rw [List.getElem?_eq_getElem hilt, Option.map_some, compareOffset, if_pos (by omega)]
  rw [sectionOffset, EhFrame.sectionOffset, if_neg (by omega)]
  simp only [hfound, Option.bind_eq_bind, Option.bind_some, List.getElem?_eq_getElem ht, hxt]

/-- An offset that is mapped is taken along with its entry, and by all bytes that are inserted. -/
theorem toNat_entryOffset {cieInf : Entry → Option OutCie} {v : BitVec 64}
    (h : entryOffset cieInf x offset = some v) (hv : v ≠ -2) (hlow : x.entry.offset ≤ offset)
    (hlt : x.newOffset + (offset - x.entry.offset) + x.entry.extraStringBytes +
      x.entry.extraDataBytes < 2 ^ 64) :
    pointerRelative cieInf x.entry offset = some false ∧
      v.toNat = x.newOffset + (offset - x.entry.offset) + x.entry.extraStringBytes +
        x.entry.extraDataBytes := by
  obtain ⟨relative, hrel, h⟩ := Option.map_eq_some_iff.mp h
  split at h
  · exact absurd h.symm hv
  · next hneither =>
    have hfalse : relative = false := by
      cases relative
      · rfl
      · exact absurd rfl hneither
    rw [hfalse] at hrel
    refine ⟨hrel, ?_⟩
    rw [← h]
    simp only [BitVec.toNat_add, BitVec.toNat_sub, BitVec.toNat_ofNat]
    omega

/-- The offset is neither of the special values then. -/
theorem exists_entryOffset {cieInf : Entry → Option OutCie}
    (hp : pointerRelative cieInf x.entry offset = some false)
    (ho : operandRelative x.entry offset = false) (hlow : x.entry.offset ≤ offset)
    (hlt : x.newOffset + (offset - x.entry.offset) + x.entry.extraStringBytes +
      x.entry.extraDataBytes < 2 ^ 64 - 2) :
    ∃ v, entryOffset cieInf x offset = some v ∧ v ≠ -1 ∧ v ≠ -2 ∧
      v.toNat = x.newOffset + (offset - x.entry.offset) + x.entry.extraStringBytes +
        x.entry.extraDataBytes := by
  have hvalue : (BitVec.ofNat 64 offset + .ofNat 64 x.newOffset - .ofNat 64 x.entry.offset +
      .ofNat 64 (x.entry.extraStringBytes + x.entry.extraDataBytes)).toNat =
        x.newOffset + (offset - x.entry.offset) + x.entry.extraStringBytes +
          x.entry.extraDataBytes := by
    simp only [BitVec.toNat_add, BitVec.toNat_sub, BitVec.toNat_ofNat]
    omega
  refine ⟨_, ?_, ?_, ?_, hvalue⟩
  · rw [entryOffset, hp, Option.map_some, ho]
    rfl
  · intro h
    rw [h] at hvalue
    have hone : (-1 : BitVec 64).toNat = 2 ^ 64 - 1 := rfl
    omega
  · intro h
    rw [h] at hvalue
    have htwo : (-2 : BitVec 64).toNat = 2 ^ 64 - 2 := rfl
    omega

theorem formed_of_mem (hx : x ∈ s.placed) (hs : x.entry.size ≠ 4) : Formed s.out x := by
  have hp := parsed_of_mem (entry_mem hx)
  refine ⟨hp.sized hs, ?_, ?_⟩
  · intro u full hk hpos
    cases hadd : x.entry.addAugmentationSize with
    | true => exact (hp.added hadd).2.1
    | false =>
      apply (hp.letter u full hk).2.2.1
      cases hfde : u.addFdeEncoding with
      | true => rfl
      | false => simp [growth, hadd, hfde] at hpos
  · intro i hk
    have := hp.range i hk hs
    rw [sizeAt, s.ptrSize]
    omega

/-- A kept entry has come to its place, and has been edited there. -/
theorem written_of_mem (hfits : Fits s.sec.ptrSize s.entries) (hm : ∀ p, (m p).origin = some p)
    (hw : s.write m = some out) (hx : x ∈ s.placed) (hk : x.kept) (hs : x.entry.size ≠ 4) :
    ∃ m₁ m₂, Reaches s.out s.cieInf s.size x s.placed (movePasses s.placed m) m₁ ∧
      editEntry s.out s.cieInf x m₁ = some m₂ ∧
      (∀ k, 4 ≤ k → k < x.entry.size →
        (m₁ (x.newOffset + k)).origin = some (x.entry.offset + k)) ∧
      x.newOffset + x.entry.grown < 2 ^ 32 ∧
      ∀ p, x.newOffset ≤ p → p < x.newOffset + x.entry.grown → (out p).origin = (m₂ p).origin := by
  obtain ⟨hchain, hsize⟩ := placed_chained s.addressSize hfits
  have hstop : extent s.sec.ptrSize 0 s.entries ≤ roundUp (extent s.sec.ptrSize 0 s.entries) 4 :=
    le_roundUp (by decide)
  have hlt : s.size < 2 ^ 32 := Nat.lt_of_le_of_lt hsize.le hfits
  rw [write, writeSection, s.ptrSize] at hw
  obtain ⟨m₁, m₂, hreach, hedit, horigin, hout⟩ := writeEntries_entry
    (fun y hy _ hsy => formed_of_mem (s := s) hy hsy) hchain (hstop.trans hsize.ge) hlt hw hx hk hs
  have hend := (hchain.mem (List.mem_filter.mpr ⟨hx, hk⟩)).2
  refine ⟨m₁, m₂, hreach, hedit, ?_, ?_, hout⟩
  · intro k hge hk'
    rw [horigin _ (by omega) (by omega)]
    have hheld := heldAt_movePasses (m := m) s.apart hchain hx hk k hk'
    exact (congrArg Cell.origin hheld).trans (hm _)
  · exact Nat.lt_of_le_of_lt (hend.trans hstop) hfits

theorem kept_eq_true (hk : x.kept) : x.entry.removed = false := by
  unfold Placed.kept at hk
  simpa using hk

/-! The pointer to the personality routine. -/

/-- The writer comes to an entry once. -/
theorem reaches_unique {o : OutSec} {cieInf : Entry → Option OutCie} {size : Nat}
    {l : List Placed} {m m₁ m₂ : Contents} (hl : l.Nodup) (h₁ : Reaches o cieInf size x l m m₁)
    (h₂ : Reaches o cieInf size x l m m₂) : m₁ = m₂ := by
  have hmem : ∀ {l : List Placed} {m m' : Contents}, Reaches o cieInf size x l m m' → x ∈ l := by
    intro l m m' h
    induction h with
    | here rest m => exact List.mem_cons_self
    | skipped _ _ ih => exact List.mem_cons_of_mem _ ih
    | written _ _ _ ih => exact List.mem_cons_of_mem _ ih
  induction h₁ with
  | here rest m =>
    have hnot := (List.nodup_cons.mp hl).1
    cases h₂ with
    | here => rfl
    | skipped _ h₂ => exact absurd (hmem h₂) hnot
    | written _ _ h₂ => exact absurd (hmem h₂) hnot
  | skipped hy h₁ ih =>
    obtain ⟨hnot, hl⟩ := List.nodup_cons.mp hl
    cases h₂ with
    | here => exact absurd (hmem h₁) hnot
    | skipped _ h₂ => exact ih hl h₂
    | written hy' _ _ => exact absurd hy' hy
  | written hy hm h₁ ih =>
    obtain ⟨hnot, hl⟩ := List.nodup_cons.mp hl
    cases h₂ with
    | here => exact absurd (hmem h₁) hnot
    | skipped hy' _ => exact absurd hy hy'
    | written _ hm' h₂ =>
      rw [hm] at hm'
      cases hm'
      exact ih hl h₂

theorem nodup (s : Edited info) : s.placed.Nodup := by
  have hlt : s.entries.Pairwise fun x y => x.offset < y.offset := by
    apply List.Pairwise.imp_of_mem ?_ s.apart
    intro x y hx _ hxy
    have hsized := (parsed_of_mem hx).sized
    omega
  have hplaced : s.placed.Pairwise fun x y => x.entry.offset < y.entry.offset := pairwise_placed hlt
  apply hplaced.imp
  intro x y hxy heq
  rw [heq] at hxy
  exact Nat.lt_irrefl _ hxy

/-- A pointer inside of a CIE that gets no letter, or behind the numbers of one that does. -/
theorem personality_mapped {r : Rela} (hfits : Fits s.sec.ptrSize s.entries)
    (hm : ∀ p, (m p).origin = some p) (hw : s.write m = some out) (hx : x ∈ s.placed) (hk : x.kept)
    (hkind : x.entry.kind = .cie u full) (hper : full.perEncoding ≠ peOmit)
    (hr : s.rels[full.personality]? = some r) :
    Mapped s out r.offset (peWidth full.perEncoding s.sec.ptrSize) ↔
      ¬ Passed s m x .personality r.offset := by
  have hp := parsed_of_mem (entry_mem hx)
  obtain ⟨r', hr', hlow, hhigh, hpos⟩ := hp.personality u full hkind hper
  rw [hr] at hr'
  cases hr'
  have hs : x.entry.size ≠ 4 := by omega
  have hgrown := grown_of_cie hkind hs
  obtain ⟨hstr, hdata⟩ := extra_of_cie hkind
  obtain ⟨m₁, m₂, hreach, hedit, horigin, hlt, hout⟩ := written_of_mem hfits hm hw hx hk hs
  have hoffset : s.sectionOffset r.offset = entryOffset s.cieInf x r.offset := by
    rw [sectionOffset_of_mem hx (by omega) (by omega), kept_eq_true hk]
    rfl
  have hpointer : pointerRelative s.cieInf x.entry r.offset = some
      (u.makePerEncodingRelative && r.offset = x.entry.offset + 8 + u.personalityOffset.toNat) := by
    rw [pointerRelative, hkind]
  have hoperand : operandRelative x.entry r.offset = false := by
    rw [operandRelative, (hp.letter u full hkind).2.2.2]
  unfold editEntry at hedit
  rw [hkind] at hedit
  constructor
  · -- the byte before the mapped offset comes from behind the pointer or is new
    rintro hmapped ⟨u', full', m₁', stop, hkind', hgrow, hrel, hreach', hwalk, hbefore⟩
    rw [hkind] at hkind'
    cases hkind'
    cases reaches_unique s.nodup hreach hreach'
    have hedited : x.entry.makeRelative ∨ u.makeLsdaRelative ∨ u.perEncodingRelative :=
      .inl ((formed_of_mem hx hs).cie u full hkind hgrow)
    obtain ⟨aug, buf, hwalk', haug, -, -, hbuf, hopened⟩ := editCie_opened hkind hedited hedit
    rw [hwalk] at hwalk'
    cases hwalk'
    have hnone : pointerRelative s.cieInf x.entry r.offset = some false := by
      rw [hpointer]
      simpa using hrel
    obtain ⟨v, hv, hone, htwo, hnat⟩ := exists_entryOffset hnone hoperand (by omega)
      (show x.newOffset + (r.offset - x.entry.offset) + x.entry.extraStringBytes +
        x.entry.extraDataBytes < 2 ^ 64 - 2 by omega)
    have hfirst := hmapped v (hoffset.trans hv) hone htwo 0 hpos
    rw [hout _ (by omega) (by omega), hnat, hstr, hdata] at hfirst
    by_cases hnext : x.newOffset + (r.offset - x.entry.offset) + growth x u < stop
    · have hheader := hopened.header (x.newOffset + (r.offset - x.entry.offset + growth x u))
        (by omega) (by omega)
      rw [horigin _ (by omega) (by omega)] at hheader
      rw [show x.newOffset + (r.offset - x.entry.offset) + growth x u + growth x u + 0 =
        x.newOffset + (r.offset - x.entry.offset + growth x u) + growth x u by omega, hheader] at hfirst
      have := Option.some.inj hfirst
      omega
    · rw [hopened.data _ (by omega) (by omega)] at hfirst
      cases hfirst
  · intro hnot v hv hone htwo k hk'
    rw [hoffset] at hv
    obtain ⟨hfalse, hnat⟩ := toNat_entryOffset hv htwo (by omega) (by omega)
    have hrel : ¬ (u.makePerEncodingRelative ∧
        r.offset = x.entry.offset + 8 + u.personalityOffset.toNat) := by
      rw [hpointer] at hfalse
      simpa using hfalse
    rw [hnat, hstr, hdata, hout _ (by omega) (by omega)]
    have hsource := horigin (r.offset - x.entry.offset + k) (by omega) (by omega)
    rw [show x.entry.offset + (r.offset - x.entry.offset + k) = r.offset + k by omega] at hsource
    by_cases hedited : x.entry.makeRelative ∨ u.makeLsdaRelative ∨ u.perEncodingRelative
    · obtain ⟨aug, buf, hwalk, -, -, -, hbuf, hopened⟩ := editCie_opened hkind hedited hedit
      rcases Nat.eq_zero_or_pos (growth x u) with hzero | hgrow
      · rw [hzero] at hopened ⊢
        rw [← hsource, ← hopened.same _ (by omega)]
        congr 2
        omega
      · have hle : buf ≤ x.newOffset + (r.offset - x.entry.offset) := by
          by_contra hgt
          exact hnot ⟨u, full, m₁, buf, hkind, hgrow, hrel, hreach, hwalk, by omega⟩
        rw [← hsource, ← hopened.rest _ (by omega) (by omega)]
        congr 2
        omega
    · have hzero : growth x u = 0 := by
        by_contra hne
        exact hedited (.inl ((formed_of_mem hx hs).cie u full hkind (by omega)))
      rw [editCie_unedited hedited hedit, hzero, ← hsource]
      congr 2
      omega

/-! The fields of an FDE. -/

/-- An FDE gets its byte exactly if its CIE has got a letter for it. -/
theorem inserts_iff {i : Option Nat} {cie : OutCie} (hx : x ∈ s.placed) (hk : x.kept)
    (hkind : x.entry.kind = .fde i) (hs : x.entry.size ≠ 4) (hcie : s.cieInf x.entry = some cie) :
    Inserts s.out x cie ↔ x.entry.addAugmentationSize := by
  constructor
  · intro h
    exact h.2.1
  · intro hadd
    obtain ⟨hpic, -, homit, -, -⟩ := (parsed_of_mem (entry_mem hx)).added hadd
    obtain ⟨cie', hcie', hlsda⟩ := found_of_mem (entry_mem hx) hkind hs (kept_eq_true hk)
    rw [hcie] at hcie'
    cases hcie'
    refine ⟨?_, hadd, ?_⟩
    · rw [s.relocatable]
      exact info.exclusive hpic
    · rw [homit] at hlsda ⊢
      rintro (h | h)
      · exact absurd h (by decide)
      · exact absurd (hlsda h) (by decide)

theorem fde_written {i : Option Nat} (hfits : Fits s.sec.ptrSize s.entries)
    (hm : ∀ p, (m p).origin = some p) (hw : s.write m = some out) (hx : x ∈ s.placed) (hk : x.kept)
    (hkind : x.entry.kind = .fde i) (hs : x.entry.size ≠ 4) :
    ∃ m₁ m₂, Widened m₁ m₂ x.newOffset (sizeAt s.out x) (x.newOffset + x.entry.size)
        x.entry.addAugmentationSize.toNat ∧
      (∀ k, 4 ≤ k → k < x.entry.size →
        (m₁ (x.newOffset + k)).origin = some (x.entry.offset + k)) ∧
      x.newOffset + x.entry.grown < 2 ^ 32 ∧
      ∀ p, x.newOffset ≤ p → p < x.newOffset + x.entry.grown → (out p).origin = (m₂ p).origin := by
  obtain ⟨m₁, m₂, -, hedit, horigin, hlt, hout⟩ := written_of_mem hfits hm hw hx hk hs
  unfold editEntry at hedit
  rw [hkind] at hedit
  obtain ⟨cie, hcie, hedit⟩ := Option.bind_eq_some_iff.mp hedit
  obtain ⟨grow, hone, hzero, hwide⟩ := editFde_widened ((formed_of_mem hx hs).fde i hkind) hedit
  have hiff := inserts_iff hx hk hkind hs hcie
  have hgrow : grow = x.entry.addAugmentationSize.toNat := by
    cases hadd : x.entry.addAugmentationSize with
    | true => exact hone (hiff.mpr hadd)
    | false =>
      apply hzero
      intro hins
      rw [hiff.mp hins] at hadd
      cases hadd
  rw [hgrow] at hwide
  exact ⟨m₁, m₂, hwide, horigin, hlt, hout⟩

theorem extra_of_fde {i : Option Nat} (hk : x.entry.kind = .fde i) :
    x.entry.extraStringBytes = 0 ∧ x.entry.extraDataBytes = x.entry.addAugmentationSize.toNat := by
  unfold Entry.extraStringBytes Entry.extraDataBytes
  rw [hk]
  exact ⟨rfl, rfl⟩

/-- What is behind the address range is mapped to where it is. -/
theorem behind_mapped {i : Option Nat} (hfits : Fits s.sec.ptrSize s.entries)
    (hm : ∀ p, (m p).origin = some p) (hw : s.write m = some out) (hx : x ∈ s.placed) (hk : x.kept)
    (hkind : x.entry.kind = .fde i) (hs : x.entry.size ≠ 4)
    (hlow : x.entry.offset + 8 + 2 * peWidth x.entry.fdeEncoding s.sec.ptrSize ≤ offset)
    (hhigh : offset + width ≤ x.entry.offset + x.entry.size) : Mapped s out offset width := by
  obtain ⟨m₁, m₂, hwide, horigin, hlt, hout⟩ := fde_written hfits hm hw hx hk hkind hs
  obtain ⟨hstr, hdata⟩ := extra_of_fde hkind
  have hgrown := grown_of_fde hkind hs
  have hat : sizeAt s.out x = x.newOffset + 8 + peWidth x.entry.fdeEncoding s.sec.ptrSize * 2 := by
    rw [sizeAt, s.ptrSize]
  intro v hv hone htwo k hk'
  rw [sectionOffset_of_mem hx (by omega) (by omega), kept_eq_true hk] at hv
  obtain ⟨-, hnat⟩ := toNat_entryOffset hv htwo (by omega) (by omega)
  have hsource := horigin (offset - x.entry.offset + k) (by omega) (by omega)
  rw [show x.entry.offset + (offset - x.entry.offset + k) = offset + k by omega] at hsource
  rw [hnat, hstr, hdata, hout _ (by omega) (by omega), ← hsource,
    ← hwide.rest _ (by omega) (by omega)]
  congr 2
  omega

/-- The initial location of an FDE that gets the byte becomes relative. -/
theorem initialLocation_mapped {i : Option Nat} (hfits : Fits s.sec.ptrSize s.entries)
    (hm : ∀ p, (m p).origin = some p) (hw : s.write m = some out) (hx : x ∈ s.placed) (hk : x.kept)
    (hkind : x.entry.kind = .fde i) (hs : x.entry.size ≠ 4) :
    Mapped s out (x.entry.offset + 8) (peWidth x.entry.fdeEncoding s.sec.ptrSize) := by
  have hp := parsed_of_mem (entry_mem hx)
  have hrange := hp.range i hkind hs
  obtain ⟨m₁, m₂, hwide, horigin, hlt, hout⟩ := fde_written hfits hm hw hx hk hkind hs
  obtain ⟨hstr, hdata⟩ := extra_of_fde hkind
  have hgrown := grown_of_fde hkind hs
  have hat : sizeAt s.out x = x.newOffset + 8 + peWidth x.entry.fdeEncoding s.sec.ptrSize * 2 := by
    rw [sizeAt, s.ptrSize]
  intro v hv hone htwo k hk'
  rw [sectionOffset_of_mem hx (by omega) (by omega), kept_eq_true hk] at hv
  obtain ⟨hpointer, hnat⟩ := toNat_entryOffset hv htwo (by omega) (by omega)
  cases hadd : x.entry.addAugmentationSize with
  | true =>
    rw [pointerRelative, hkind] at hpointer
    dsimp only at hpointer
    rw [if_pos ⟨(hp.added hadd).2.1, rfl⟩] at hpointer
    cases hpointer
  | false =>
    have hsource := horigin (8 + k) (by omega) (by omega)
    rw [hadd, Bool.toNat_false] at hdata
    rw [hnat, hstr, hdata, hout _ (by omega) (by omega), Nat.add_assoc x.entry.offset 8 k, ← hsource,
      ← hwide.body _ (by omega) (by omega)]
    congr 2
    omega

/-- The address range of such an FDE is not where it is mapped to. -/
theorem addressRange_mapped_iff {i : Option Nat} (hfits : Fits s.sec.ptrSize s.entries)
    (hm : ∀ p, (m p).origin = some p) (hw : s.write m = some out) (hx : x ∈ s.placed) (hk : x.kept)
    (hkind : x.entry.kind = .fde i) (hs : x.entry.size ≠ 4) :
    Mapped s out (x.entry.offset + 8 + peWidth x.entry.fdeEncoding s.sec.ptrSize)
        (peWidth x.entry.fdeEncoding s.sec.ptrSize) ↔ ¬ x.entry.addAugmentationSize := by
  have hp := parsed_of_mem (entry_mem hx)
  have hrange := hp.range i hkind hs
  obtain ⟨m₁, m₂, hwide, horigin, hlt, hout⟩ := fde_written hfits hm hw hx hk hkind hs
  obtain ⟨hstr, hdata⟩ := extra_of_fde hkind
  have hgrown := grown_of_fde hkind hs
  have hat : sizeAt s.out x = x.newOffset + 8 + peWidth x.entry.fdeEncoding s.sec.ptrSize * 2 := by
    rw [sizeAt, s.ptrSize]
  constructor
  · intro hmapped hadd
    obtain ⟨-, -, homit, habs, hzero⟩ := hp.added hadd
    have hwidth : 2 ≤ peWidth x.entry.fdeEncoding s.sec.ptrSize := by
      rw [habs]
      rcases s.addressSize with h | h | h <;> rw [h] <;> decide
    obtain ⟨cie, hcie, -⟩ := found_of_mem (entry_mem hx) hkind hs (kept_eq_true hk)
    have hpointer : pointerRelative s.cieInf x.entry
        (x.entry.offset + 8 + peWidth x.entry.fdeEncoding s.sec.ptrSize) = some false := by
      have hfirst : ¬ (x.entry.makeRelative = true ∧
          x.entry.offset + 8 + peWidth x.entry.fdeEncoding s.sec.ptrSize = x.entry.offset + 8) := by
        omega
      have hlsda : x.entry.offset + 8 + peWidth x.entry.fdeEncoding s.sec.ptrSize ≠
          x.entry.offset + 8 + x.entry.lsdaOffset.toNat := by
        rw [hzero]
        show _ ≠ x.entry.offset + 8 + 0
        omega
      rw [pointerRelative, hkind]
      dsimp only
      rw [if_neg hfirst, hcie, Option.map_some, decide_eq_false hlsda, Bool.and_false]
    have hoperand : operandRelative x.entry
        (x.entry.offset + 8 + peWidth x.entry.fdeEncoding s.sec.ptrSize) = false := by
      unfold operandRelative
      split
      · next first rest hlocs =>
        have hnone : ((first :: rest).any fun loc =>
            decide (x.entry.offset + 8 + peWidth x.entry.fdeEncoding s.sec.ptrSize =
              x.entry.offset + 8 + loc)) = false := by
          apply List.any_eq_false.mpr
          intro loc hloc
          have := hp.setLoc _ hlocs loc hloc
          simp only [decide_eq_true_eq]
          omega
        rw [hnone, Bool.and_false]
      · rfl
    obtain ⟨v, hv, hone, htwo, hnat⟩ := exists_entryOffset hpointer hoperand (by omega) (by omega)
    rw [hadd, Bool.toNat_true] at hgrown hdata
    have hoffset : s.sectionOffset
        (x.entry.offset + 8 + peWidth x.entry.fdeEncoding s.sec.ptrSize) = some v := by
      rw [sectionOffset_of_mem hx (by omega) (by omega), kept_eq_true hk, ← hv]
      rfl
    -- its second byte is there
    have hsecond := horigin (8 + peWidth x.entry.fdeEncoding s.sec.ptrSize + 1) (by omega) (by omega)
    have hfirst := hmapped v hoffset hone htwo 0 (by omega)
    rw [hnat, hstr, hdata, hout _ (by omega) (by omega), hwide.body _ (by omega) (by omega),
      show x.newOffset + (x.entry.offset + 8 + peWidth x.entry.fdeEncoding s.sec.ptrSize -
        x.entry.offset) + 0 + 1 + 0 =
          x.newOffset + (8 + peWidth x.entry.fdeEncoding s.sec.ptrSize + 1) by omega, hsecond] at hfirst
    have := Option.some.inj hfirst
    omega
  · intro hadd v hv hone htwo k hk'
    rw [sectionOffset_of_mem hx (by omega) (by omega), kept_eq_true hk] at hv
    obtain ⟨-, hnat⟩ := toNat_entryOffset hv htwo (by omega) (by omega)
    have hsource := horigin (8 + peWidth x.entry.fdeEncoding s.sec.ptrSize + k) (by omega) (by omega)
    rw [show x.entry.offset + (8 + peWidth x.entry.fdeEncoding s.sec.ptrSize + k) =
      x.entry.offset + 8 + peWidth x.entry.fdeEncoding s.sec.ptrSize + k by omega] at hsource
    rw [Bool.not_eq_true] at hadd
    rw [hadd, Bool.toNat_false] at hdata
    rw [hnat, hstr, hdata, hout _ (by omega) (by omega), ← hsource,
      ← hwide.body _ (by omega) (by omega)]
    congr 2
    omega

theorem extra_le (e : Entry) : e.extraStringBytes ≤ 2 ∧ e.extraDataBytes ≤ 2 := by
  have hadd := e.addAugmentationSize.toNat_le
  unfold Entry.extraStringBytes Entry.extraDataBytes
  split
  · next u _ _ =>
    have hfde := u.addFdeEncoding.toNat_le
    omega
  · omega

/-- No offset in a kept entry is mapped to -1. -/
theorem entryOffset_ne (hfits : Fits s.sec.ptrSize s.entries) (hx : x ∈ s.placed) (hk : x.kept)
    (hlow : x.entry.offset ≤ offset) (hhigh : offset < x.entry.offset + x.entry.size) :
    entryOffset s.cieInf x offset ≠ some (-1) := by
  intro h
  obtain ⟨hchain, -⟩ := placed_chained s.addressSize hfits
  have hend := (hchain.mem (List.mem_filter.mpr ⟨hx, hk⟩)).2
  have hgrown := le_grown (e := x.entry)
  have hextra := extra_le x.entry
  have hextent : extent s.sec.ptrSize 0 s.entries ≤
      roundUp (extent s.sec.ptrSize 0 s.entries) 4 := le_roundUp (by decide)
  have hlt : roundUp (extent s.sec.ptrSize 0 s.entries) 4 < 2 ^ 32 := hfits
  obtain ⟨-, hnat⟩ := toNat_entryOffset h (by decide) hlow (by omega)
  have hone : (-1 : BitVec 64).toNat = 2 ^ 64 - 1 := rfl
  omega

/-- A field that is not passed is mapped to where it is, and only then; and the offsets inside of
an entry are mapped to -1 exactly if it has been removed. -/
theorem fields_mapped_iff (s : Edited info) {m out : Contents}
    (hfits : Fits s.sec.ptrSize s.entries) (hm : ∀ p, (m p).origin = some p)
    (hw : s.write m = some out) :
    (∀ x ∈ s.placed, ∀ offset, x.entry.offset ≤ offset → offset < x.entry.offset + x.entry.size →
      (s.sectionOffset offset = some (-1) ↔ x.entry.removed)) ∧
    ∀ x ∈ s.placed, x.kept → ∀ kind offset width, IsField s x.entry kind offset width →
      (Mapped s out offset width ↔ ¬ Passed s m x kind offset) := by
  constructor
  · intro x hx offset hlow hhigh
    rw [sectionOffset_of_mem hx hlow hhigh]
    cases hr : x.entry.removed with
    | true => exact ⟨fun _ => rfl, fun _ => rfl⟩
    | false =>
      have hk : x.kept := by rw [Placed.kept, hr]; rfl
      exact ⟨fun h => absurd h (entryOffset_ne hfits hx hk hlow hhigh),
        fun h => absurd h Bool.false_ne_true⟩
  · intro x hx hk kind offset width hfield
    cases hfield with
    | personality hkind hper hr => exact personality_mapped hfits hm hw hx hk hkind hper hr
    | initialLocation hkind hs =>
      have hmapped := initialLocation_mapped hfits hm hw hx hk hkind hs
      exact ⟨fun _ h => h, fun _ => hmapped⟩
    | addressRange hkind hs => exact addressRange_mapped_iff hfits hm hw hx hk hkind hs
    | lsda hkind hs hlsda hplace hin =>
      have hlow : x.entry.offset + 8 + 2 * peWidth x.entry.fdeEncoding s.sec.ptrSize ≤ offset := by
        rcases hplace with rfl | hskip
        · exact le_rfl
        · exact (Bytes.lt_of_skipLeb128 hskip).1.le
      have hmapped := behind_mapped hfits hm hw hx hk hkind hs hlow hin
      exact ⟨fun _ h => h, fun _ => hmapped⟩
    | setLoc hkind hs hinsns hlocs hloc hin =>
      have hoperand := lt_of_setLocsFrom (by omega) hlocs _ hloc
      have hmapped := behind_mapped hfits hm hw hx hk hkind hs (by omega) hin
      exact ⟨fun _ h => h, fun _ => hmapped⟩

end Edited

/-! A CIE without an augmentation and an FDE with a relocated address range, in a shared library. -/

def smallSec : EhSec :=
  { contents := [12, 0, 0, 0, 0, 0, 0, 0, 1, 0, 1, 0x7c, 8, 0x0c, 4, 4,
      16, 0, 0, 0, 20, 0, 0, 0, 0, 0, 0, 0, 0x10, 0, 0, 0, 0x41, 0x0e, 8, 0]
    bigEndian := false
    ptrSize := 4
    abfd := 0
    elfclass64 := false
    linkerCreated := false
    outputSection := some 0
    canMakeRelative := true
    useRela := false }

def smallRels : Rels := [⟨24, 1, 0⟩, ⟨28, 1, 0⟩]

def sharedLibrary : LinkInfo := ⟨true, false, fun _ => rfl⟩

example : (parseEhFrame sharedLibrary smallSec smallRels fun _ => none).map List.length = some 2 := by
  decide +kernel

theorem small_isSome :
    (parseEhFrame sharedLibrary smallSec smallRels fun _ => none).isSome := by decide +kernel

/-- Nothing of it is discarded. -/
def small : Edited sharedLibrary where
  sec := smallSec
  rels := smallRels
  rsec := fun _ => none
  parsed := (parseEhFrame sharedLibrary smallSec smallRels fun _ => none).get small_isSome
  accepted := (Option.some_get small_isSome).symm
  entries := ((parseEhFrame sharedLibrary smallSec smallRels fun _ => none).get small_isSome).map
    fun e => { e with removed := false }
  cieInf := fun _ => some ⟨0, false⟩
  discarded := by
    refine List.forall₂_map_right_iff.mpr (List.forall₂_same.mpr fun e _ => ?_)
    refine ⟨rfl, fun u full hk => ⟨u, hk, rfl⟩, fun i hk => ⟨i, hk⟩, ?_⟩
    intro i _ _ _
    refine ⟨⟨0, false⟩, rfl, ?_⟩
    intro h
    cases h
  out := ⟨false, 4, false, 0x1000, 0, 64⟩
  ptrSize := rfl
  addressSize := .inr (.inl rfl)
  relocatable := rfl

/-- It fits, it is written, and the FDE is the second entry. -/
theorem small_evaluated : Fits small.sec.ptrSize small.entries ∧
    (small.write (contentsOf smallSec)).isSome ∧ 1 < small.placed.length := by decide +kernel

theorem small_written : (small.write (contentsOf smallSec)).isSome := small_evaluated.2.1

def smallOut : Contents := (small.write (contentsOf smallSec)).get small_written

theorem small_mapped :
    (∀ x ∈ small.placed, ∀ offset, x.entry.offset ≤ offset →
      offset < x.entry.offset + x.entry.size →
        (small.sectionOffset offset = some (-1) ↔ x.entry.removed)) ∧
    ∀ x ∈ small.placed, x.kept → ∀ kind offset width, IsField small x.entry kind offset width →
      (Mapped small smallOut offset width ↔ ¬ Passed small (contentsOf smallSec) x kind offset) :=
  Edited.fields_mapped_iff small small_evaluated.1 (fun _ => rfl)
    (Option.some_get small_written).symm

theorem two_small : 1 < small.placed.length := small_evaluated.2.2

/-- The address range has not moved with the bytes behind it. -/
theorem range_not_mapped :
    ¬ ∀ x ∈ small.placed, x.kept → ∀ kind offset width, IsField small x.entry kind offset width →
      Mapped small smallOut offset width := by
  intro h
  have hfde : ∃ i, (small.placed.get ⟨1, two_small⟩).entry.kind = .fde i := by
    cases hk : (small.placed.get ⟨1, two_small⟩).entry.kind with
    | cie u full =>
      -- a CIE would get a letter with its augmentation size
      have hadd : (small.placed.get ⟨1, two_small⟩).entry.addAugmentationSize = true := by
        decide +kernel
      have hstr : (small.placed.get ⟨1, two_small⟩).entry.extraStringBytes = 0 := by
        decide +kernel
      rw [(extra_of_cie hk).1, growth, hadd] at hstr
      simp at hstr
    | fde i => exact ⟨i, rfl⟩
  obtain ⟨i, hk⟩ := hfde
  have hmapped := h _ (List.get_mem _ _) (by decide +kernel) _ _ _
    (.addressRange hk (by decide +kernel))
  have hrange := hmapped 33 (by decide +kernel) (by decide) (by decide) 0 (by decide +kernel)
  exact absurd hrange (by decide +kernel)

end FusionBinutils.Bfd.EhFrame
