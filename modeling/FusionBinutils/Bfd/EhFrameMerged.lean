import FusionBinutils.Bfd.EhFrameMerge
import FusionBinutils.Bfd.EhFrameParsed

/-! What is known of two CIEs of which one has been merged with the other. -/
namespace FusionBinutils.Bfd.EhFrame

/-- What a CIE holds on to of its instructions, and that the length of them is kept in a byte. -/
structure Cie.Records (full : Cie) : Prop where
  length : full.initialInsnLength.toNat = full.insns.length % 256
  first : ∀ n ≤ 50, n ≤ full.insns.length → full.initialInstructions.take n = full.insns.take n

section parse
variable {info : LinkInfo} {sec : EhSec} {rels : Rels} {rsec : Rela → Option Nat} {b : Bytes}
  {offset hdrLength relocIndex start rel rel' : Nat} {e : Entry} {u : CieInf} {full : Cie}

theorem length_slice {p q : Nat} (hp : p ≤ q) (hq : q ≤ b.ehbuf.length) :
    (b.slice p q).length = q - p := by
  rw [Bytes.slice, List.length_take, List.length_drop]
  omega

theorem take_slice {p q r n : Nat} (hn : n ≤ q - p) (hqr : q ≤ r) :
    (b.slice p r).take n = (b.slice p q).take n := by
  rw [Bytes.slice, Bytes.slice, List.take_take, List.take_take]
  congr 1
  omega

theorem records_of_parseCie (hs : b.stop < 2 ^ 64) (hlen : b.stop ≤ b.ehbuf.length)
    (h : parseCie info sec rels b offset hdrLength relocIndex start rel = some (e, rel'))
    (hk : e.kind = .cie u full) : full.Records := by
  obtain ⟨head, hhead, h⟩ := Option.bind_eq_some_iff.mp h
  obtain ⟨rel₂, -, h⟩ := Option.bind_eq_some_iff.mp h
  obtain ⟨⟨insnsEnd, setLocCount⟩, hinsns, h⟩ := Option.bind_eq_some_iff.mp h
  obtain ⟨_, -, h⟩ := Option.bind_eq_some_iff.mp h
  cases h
  cases hk
  obtain ⟨lo, hlo, hread⟩ := readCieHead_read hs hhead
  have hbuf := hread.high
  obtain ⟨hle, hle'⟩ := Bytes.skipNonNops_le hs hbuf hinsns
  have hall := length_slice hbuf hlen
  have hpart := length_slice hle (hle'.trans hlen)
  constructor
  · have hsub : BitVec.ofNat 8 (b.stop - head.augment.buf) - BitVec.ofNat 8 (b.stop - insnsEnd) =
        BitVec.ofNat 8 (insnsEnd - head.augment.buf) := by
      apply BitVec.eq_of_toNat_eq
      simp only [BitVec.toNat_sub, BitVec.toNat_ofNat]
      omega
    dsimp only
    rw [hall, hpart, hsub, BitVec.toNat_ofNat]
  · intro n hn hin
    dsimp only at hin ⊢
    rw [hpart] at hin
    rw [List.take_take, Nat.min_eq_left hn, take_slice hin hle']

/-- The record of every CIE of an accepted section. -/
theorem records_of_parseEhFrame {l : List Entry} (h : parseEhFrame info sec rels rsec = some l)
    (he : e ∈ l) (hk : e.kind = .cie u full) : full.Records := by
  obtain ⟨_, hguard, h⟩ := Option.bind_eq_some_iff.mp h
  obtain ⟨count, -, h⟩ := Option.bind_eq_some_iff.mp h
  obtain ⟨-, -, hs, -⟩ := guard_eq_some hguard
  have hall : ∀ e ∈ l, ∀ u full, e.kind = .cie u full → full.Records := by
    refine parseFrom_forall ?_ ?_ ?_ hs (fun e he => absurd he List.not_mem_nil) h
    · intro buf rel e rel' hlen _ _ hcie u full hk
      refine records_of_parseCie ?_ hlen hcie hk
      dsimp only
      omega
    · intro e i hk u full hk'
      rw [hk] at hk'
      cases hk'
    · intro e hrecords u full hk
      rw [Entry.setMakeLsdaRelative] at hk
      split at hk
      · next u₀ full₀ hkind =>
        cases hk
        exact hrecords u₀ _ hkind
      · exact hrecords u full hk
  exact hall e he u full hk

end parse

variable {info : LinkInfo} {hash : HashKey → Nat} {table : List (Resolved info)}
  {cs : List (Accepted info)} {c : Accepted info} {p : Resolved info × Resolved info}

theorem Accepted.records (c : Accepted info) : c.cie.Records := by
  obtain ⟨l, hl, h⟩ := Option.bind_eq_some_iff.mp (Option.some_get c.accepted).symm
  obtain ⟨e, he, h⟩ := Option.bind_eq_some_iff.mp h
  rw [Entry.full?] at h
  split at h
  · next u full hkind =>
    cases h
    exact records_of_parseEhFrame hl (List.mem_of_getElem? he) hkind
  · cases h

namespace Resolved

/-- The instructions that the byte for their length does not count. -/
def uncounted (k : Resolved info) : List BfdByte := k.cie.insns.drop (k.cie.insns.length % 256)

/-- The instructions are the ones that are compared, and the ones that are not counted. -/
theorem insns_eq (k : Resolved info) (h : k.cie.initialInsnLength.toNat ≤ 50) :
    k.cie.insns = k.compared ++ k.uncounted := by
  obtain ⟨hlength, hfirst⟩ := k.records
  rw [compared, hfirst _ h (hlength.trans_le (Nat.mod_le _ _)), hlength, uncounted,
    List.take_append_drop]

end Resolved

/-- A CIE is merged with one from the table that is equal to it. -/
theorem cieEq_of_findMergedCie (h : (findMergedCie hash table c).2 = some p) :
    CieEq hash p.2 p.1 := by
  unfold findMergedCie at h
  split at h
  · cases h
  · split at h
    · cases h
    · next personality hp =>
      dsimp only at h
      split at h
      · next new hfind =>
        cases h
        have hequal := List.find?_some hfind
        exact of_decide_eq_true hequal
      · cases h

theorem cieEq_of_merges (h : p ∈ merges hash table cs) : CieEq hash p.2 p.1 := by
  induction cs generalizing table with
  | nil => cases h
  | cons c cs ih =>
    rcases List.mem_append.mp h with h | h
    · exact cieEq_of_findMergedCie (Option.mem_toList.mp h)
    · exact ih h

/-- Two CIEs that are merged mean the same if and only if the relocations of their personality
routines add the same, and the instructions that the byte for their length does not count are the
same. -/
theorem merges_same_iff (h : p ∈ merges hash table cs) : Same p.1 p.2 ↔
    p.1.personalityAddend = p.2.personalityAddend ∧ p.1.uncounted = p.2.uncounted := by
  obtain ⟨-, -, hversion, haugmentation, -, hcode, hdata, hra, -, hpersonality, -, hper, hlsda, hfde,
    hlength, hshort, hcompared⟩ := cieEq_of_merges h
  have hinsns := p.1.insns_eq (hlength ▸ hshort)
  have hinsns' := p.2.insns_eq hshort
  constructor
  · intro hsame
    refine ⟨(Prod.mk.inj hsame.target).2, ?_⟩
    rw [Resolved.uncounted, Resolved.uncounted, hsame.insns]
  · rintro ⟨haddend, hrest⟩
    refine ⟨hversion.symm, haugmentation.symm, hcode.symm, hdata.symm, hra.symm, ?_, hper.symm,
      hlsda.symm, hfde.symm, ?_⟩
    · exact Prod.ext hpersonality.symm haddend
    · rw [hinsns, hinsns', hcompared, hrest]

/-! Two CIEs with an expression of 255 bytes, of which nothing is counted but the first two bytes. -/

/-- The contents of a section with nothing but such a CIE. -/
def expressionCie (byte : BfdByte) : List BfdByte :=
  [0x0b, 1, 0, 0, 0, 0, 0, 0, 1, 0, 1, 0x7c, 8, 0x0f, 0xff, 1] ++ List.replicate 255 byte

def expressionSec (abfd : Nat) : EhSec :=
  { contents := expressionCie (.ofNat 8 abfd)
    bigEndian := false
    ptrSize := 4
    abfd := abfd
    elfclass64 := false
    linkerCreated := false
    outputSection := some 0
    canMakeRelative := true
    useRela := true }

def program : LinkInfo := ⟨false, false, fun _ => rfl⟩

theorem expression_isSome :
    ∀ abfd < 2, (cieAt program (expressionSec abfd) [] (fun _ => none) 0).isSome := by decide +kernel

def expression (abfd : Fin 2) : Accepted program :=
  { sec := expressionSec abfd
    cookie := ⟨[], [], 0, .symbol⟩
    rsec := fun _ => none
    n := 0
    accepted := expression_isSome abfd abfd.isLt }

def expressionMerges : List (Resolved program × Resolved program) :=
  merges (fun _ => 0) [] [expression 0, expression 1]

theorem expression_merged : 0 < expressionMerges.length := by decide +kernel

/-- What has been merged. -/
def expressionPair : Resolved program × Resolved program :=
  expressionMerges.get ⟨0, expression_merged⟩

theorem expressions_same_iff : Same expressionPair.1 expressionPair.2 ↔
    expressionPair.1.personalityAddend = expressionPair.2.personalityAddend ∧
      expressionPair.1.uncounted = expressionPair.2.uncounted :=
  merges_same_iff (List.get_mem expressionMerges ⟨0, expression_merged⟩)

/-- They are merged, though the expressions are not the same. -/
theorem merged_expressions_differ : ¬ ∀ (info : LinkInfo) (hash : HashKey → Nat)
    (cs : List (Accepted info)), ∀ p ∈ merges hash [] cs, Same p.1 p.2 := by
  intro h
  have hsame : Same expressionPair.1 expressionPair.2 :=
    h program _ _ _ (List.get_mem expressionMerges ⟨0, expression_merged⟩)
  exact absurd hsame.insns (by decide +kernel)

end FusionBinutils.Bfd.EhFrame
