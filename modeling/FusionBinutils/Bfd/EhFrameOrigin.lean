import FusionBinutils.Bfd.EhFrameCompact
import FusionBinutils.Bfd.EhFrameWrite

/-! Where the bytes of an entry are once it is written. -/
namespace FusionBinutils.Bfd.EhFrame

open Buffer

variable {o : OutSec} {x y : Placed} {u : CieInf} {full : Cie} {cie : OutCie}
  {cieInf : Entry → Option OutCie} {m m' m₁ m₂ : Contents} {l rest : List Placed}
  {aug buf stop grow size width p : Nat} {bytes : List BfdByte} {action : Action}

/-! Values that are changed where they stand. -/

/-- No byte has come to another place. -/
def InPlace (m m' : Contents) : Prop := ∀ p, (m' p).origin = (m p).origin

theorem InPlace.refl : InPlace m m := fun _ => rfl

theorem InPlace.trans (h : InPlace m m₁) (h' : InPlace m₁ m₂) : InPlace m m₂ :=
  fun p => (h' p).trans (h p)

theorem inPlace_rewrite : InPlace m (rewrite m p bytes) := by
  intro q
  unfold rewrite
  split <;> rfl

theorem inPlace_rewrite_if (c : Prop) [Decidable c] :
    InPlace m (if c then rewrite m p bytes else m) := by
  split
  · exact inPlace_rewrite
  · exact .refl

theorem inPlace_writeValue {value : BitVec 64} : InPlace m (writeValue o m p value width) :=
  inPlace_rewrite_if _

theorem inPlace_changeValue {encoding : BfdByte} {change : BitVec 64 → BitVec 64} :
    InPlace m (changeValue o m p encoding change) := by
  unfold changeValue
  dsimp only
  split
  · exact .refl
  · exact inPlace_writeValue

theorem inPlace_editLocation : InPlace m (editLocation o x m) := inPlace_changeValue

theorem inPlace_setLocs (locs : List Nat) : InPlace m (locs.foldl (editSetLoc o x) m) := by
  induction locs generalizing m with
  | nil => exact .refl
  | cons loc locs ih => exact inPlace_changeValue.trans ih

theorem inPlace_rewriteEncodings {letters : Nat}
    (h : rewriteEncodings o x u letters action m aug buf = some m') : InPlace m m' := by
  fun_induction rewriteEncodings o x u letters action m aug buf with
  | case1 =>
    cases h
    exact .refl
  | case2 => cases h
  | case3 letters action m aug buf _ letter relative hl ih =>
    exact (inPlace_rewrite_if _).trans (ih h)
  | case4 letters action m aug buf _ letter relative _ hp m₁ perEncoding perWidth buf₁ m₂ ih =>
    have hmove : InPlace m₁ m₂ := by
      unfold m₂
      split
      · exact inPlace_writeValue
      · exact .refl
    exact ((inPlace_rewrite_if _).trans hmove).trans (ih h)
  | case5 letters action m aug buf _ letter relative _ _ hr ih =>
    exact (inPlace_rewrite_if _).trans (ih h)
  | case6 letters action m aug buf _ letter _ _ _ ih => exact ih h

/-! A CIE gets room for its letters and their data. -/

/-- The place up to which the header of a CIE is passed. -/
def walkEnd (o : OutSec) (m : Contents) (start stop : Nat) : Option Nat :=
  (numbersEnd o m start stop).map fun buf =>
    if (m (start + 9)).byte = letterZ then buf + 1 else buf

/-- What is between `aug` and `buf` has moved by `grow`, and what is from there up to `stop` has
moved twice as far, behind new data. -/
structure Opened (m m' : Contents) (aug buf stop grow : Nat) : Prop where
  before : ∀ p < aug, (m' p).origin = (m p).origin
  header : ∀ p, aug ≤ p → p < buf → (m' (p + grow)).origin = (m p).origin
  data : ∀ p, buf + grow ≤ p → p < buf + 2 * grow → (m' p).origin = none
  rest : ∀ p, buf ≤ p → p < stop → (m' (p + 2 * grow)).origin = (m p).origin
  behind : ∀ p, stop + 2 * grow ≤ p → (m' p).origin = (m p).origin

theorem Opened.trans (h : Opened m m₁ aug buf stop grow) (h' : InPlace m₁ m') :
    Opened m m' aug buf stop grow where
  before p hp := (h' p).trans (h.before p hp)
  header p hp hp' := (h' _).trans (h.header p hp hp')
  data p hp hp' := (h' p).trans (h.data p hp hp')
  rest p hp hp' := (h' _).trans (h.rest p hp hp')
  behind p hp := (h' p).trans (h.behind p hp)

theorem InPlace.opened (h : InPlace m m₁) (h' : Opened m₁ m' aug buf stop grow) :
    Opened m m' aug buf stop grow where
  before p hp := (h'.before p hp).trans (h p)
  header p hp hp' := (h'.header p hp hp').trans (h p)
  data p hp hp' := h'.data p hp hp'
  rest p hp hp' := (h'.rest p hp hp').trans (h p)
  behind p hp := (h'.behind p hp).trans (h p)

/-- Where nothing is inserted everything is left. -/
theorem Opened.same (h : Opened m m' aug buf stop 0) :
    ∀ p < stop, (m' p).origin = (m p).origin := by
  intro p hp
  by_cases haug : p < aug
  · exact h.before p haug
  · by_cases hbuf : p < buf
    · exact h.header p (by omega) hbuf
    · exact h.rest p (by omega) hp

/-- How many letters a CIE gets. -/
def growth (x : Placed) (u : CieInf) : Nat :=
  x.entry.addAugmentationSize.toNat + u.addFdeEncoding.toNat

theorem store_fresh (b : BfdByte) (q : Nat) :
    (store m q [fresh b] p).origin = if p = q then none else (m p).origin := by
  split
  · next h =>
    subst h
    rw [← Nat.add_zero p, store_inside (by simp : 0 < [fresh b].length)]
    rfl
  · rw [store_outside (by rw [List.length_singleton]; omega)]

theorem putLetters_origin : ((putLetters o x u m aug buf).1 p).origin =
    if (aug ≤ p ∧ p < aug + growth x u) ∨ (buf ≤ p ∧ p < buf + growth x u) then none
    else (m p).origin := by
  unfold putLetters growth
  cases x.entry.addAugmentationSize <;> cases u.addFdeEncoding <;>
    simp only [if_true, store_fresh, Bool.toNat_true, Bool.toNat_false, Bool.false_eq_true, if_false]
  · rw [if_neg (by omega)]
  all_goals
    split_ifs <;> first | rfl | omega

theorem opened_letters (haug : aug ≤ buf) (hbuf : buf ≤ stop) :
    Opened m (putLetters o x u (makeRoom m aug buf stop (growth x u) (growth x u)) aug
      (buf + growth x u)).1 aug buf stop (growth x u) := by
  constructor
  · intro p hp
    rw [putLetters_origin, if_neg (by omega), makeRoom, memmove_outside (by omega),
      memmove_outside (by omega)]
  · intro p hp hp'
    have hsrc : p + growth x u = aug + growth x u + (p - aug) := by omega
    rw [putLetters_origin, if_neg (by omega), makeRoom, hsrc, memmove_inside (by omega),
      memmove_outside (by omega), Nat.add_sub_cancel' hp]
  · intro p hp hp'
    rw [putLetters_origin, if_pos (by omega)]
  · intro p hp hp'
    have hsrc : p + 2 * growth x u = buf + growth x u + growth x u + (p - buf) := by omega
    rw [putLetters_origin, if_neg (by omega), makeRoom, memmove_outside (by omega), hsrc,
      memmove_inside (by omega), Nat.add_sub_cancel' hp]
  · intro p hp
    rw [putLetters_origin, if_neg (by omega), makeRoom, memmove_outside (by omega),
      memmove_outside (by omega)]

theorem le_skipLeb : p ≤ skipLeb m stop p := by
  fun_induction skipLeb m stop p with
  | case1 => exact le_rfl
  | case2 => omega
  | case3 p _ _ ih => omega

/-- A CIE that is not edited stays as it is. -/
theorem editCie_unedited
    (hedit : ¬ (x.entry.makeRelative ∨ u.makeLsdaRelative ∨ u.perEncodingRelative))
    (h : editCie o x u m = some m') : m' = m := by
  rw [editCie, if_neg hedit] at h
  exact (Option.some.inj h).symm

theorem extra_of_cie (hk : x.entry.kind = .cie u full) :
    x.entry.extraStringBytes = growth x u ∧ x.entry.extraDataBytes = growth x u := by
  unfold Entry.extraStringBytes Entry.extraDataBytes
  rw [hk]
  exact ⟨rfl, rfl⟩

theorem le_of_guard {v : Unit} (h : (guard (buf ≤ stop) : Option Unit) = some v) : buf ≤ stop := by
  by_contra hlt
  simp [guard, hlt] at h

theorem growCie_opened (hk : x.entry.kind = .cie u full) (haug : aug ≤ buf)
    (h : growCie o x u m aug buf = some m') : buf ≤ x.newOffset + x.entry.size ∧
      Opened m m' aug buf (x.newOffset + x.entry.size) (growth x u) := by
  obtain ⟨hstr, hdata⟩ := extra_of_cie hk
  rw [growCie, hstr, hdata] at h
  obtain ⟨_, hguard, h⟩ := Option.bind_eq_some_iff.mp h
  have hle : buf ≤ x.newOffset + x.entry.size := le_of_guard hguard
  exact ⟨hle, (opened_letters haug hle).trans (inPlace_rewriteEncodings h)⟩

theorem editCie_opened (hk : x.entry.kind = .cie u full)
    (hedit : x.entry.makeRelative ∨ u.makeLsdaRelative ∨ u.perEncodingRelative)
    (h : editCie o x u m = some m') :
    ∃ aug buf, walkEnd o m x.newOffset (x.newOffset + x.entry.size) = some buf ∧
      aug ≤ x.newOffset + 10 ∧ aug ≤ buf ∧ x.newOffset + 9 ≤ aug ∧
      buf ≤ x.newOffset + x.entry.size ∧
      Opened m m' aug buf (x.newOffset + x.entry.size) (growth x u) := by
  rw [editCie, if_pos hedit] at h
  obtain ⟨buf, hbuf, h⟩ := Option.bind_eq_some_iff.mp h
  have hle : x.newOffset + 10 ≤ buf := by
    obtain ⟨len, -, rfl⟩ := Option.map_eq_some_iff.mp hbuf
    have hfirst : x.newOffset + 10 ≤ x.newOffset + 9 + len + 1 := by omega
    exact ((hfirst.trans le_skipLeb).trans le_skipLeb).trans le_skipLeb
  rw [walkEnd, hbuf]
  split at h
  · next hz =>
    obtain ⟨hstop, hopened⟩ := growCie_opened hk (by omega) h
    refine ⟨x.newOffset + 9 + 1, buf + 1, ?_, by omega, by omega, by omega, hstop,
      inPlace_rewrite.opened hopened⟩
    rw [Option.map_some, if_pos hz]
  · next hz =>
    obtain ⟨hstop, hopened⟩ := growCie_opened hk (by omega) h
    refine ⟨x.newOffset + 9, buf, ?_, by omega, by omega, by omega, hstop, hopened⟩
    rw [Option.map_some, if_neg hz]

/-! An FDE gets room for a zero byte. -/

/-- Whether the byte is inserted. -/
def Inserts (o : OutSec) (x : Placed) (cie : OutCie) : Prop :=
  o.relocatable = false ∧ x.entry.addAugmentationSize ∧
    ¬ (application x.entry.lsdaEncoding = pePcrel ∨ cie.makeLsdaRelative)

/-- What is between `buf` and `stop` has moved by `grow`. The pointer to the CIE is new. -/
structure Widened (m m' : Contents) (start buf stop grow : Nat) : Prop where
  before : ∀ p < start + 4, (m' p).origin = (m p).origin
  body : ∀ p, start + 8 ≤ p → p < buf → (m' p).origin = (m p).origin
  data : ∀ p, buf ≤ p → p < buf + grow → (m' p).origin = none
  rest : ∀ p, buf ≤ p → p < stop → (m' (p + grow)).origin = (m p).origin
  behind : ∀ p, stop + grow ≤ p → (m' p).origin = (m p).origin

theorem Widened.trans {start : Nat} (h : Widened m m₁ start buf stop grow) (h' : InPlace m₁ m') :
    Widened m m' start buf stop grow where
  before p hp := (h' p).trans (h.before p hp)
  body p hp hp' := (h' p).trans (h.body p hp hp')
  data p hp hp' := (h' p).trans (h.data p hp hp')
  rest p hp hp' := (h' _).trans (h.rest p hp hp')
  behind p hp := (h' p).trans (h.behind p hp)

/-- The pointer to the CIE. -/
theorem widened_pointer {ptr : List BfdByte} {start : Nat} (hptr : ptr.length = 4)
    (hbuf : start + 8 ≤ buf) (hstop : buf ≤ stop) :
    Widened m (store m (start + 4) (ptr.map fresh)) start buf stop 0 := by
  have hout : ∀ p, p < start + 4 ∨ start + 8 ≤ p →
      (store m (start + 4) (ptr.map fresh) p).origin = (m p).origin := by
    intro p hp
    rw [store_outside (by rw [List.length_map]; omega)]
  exact ⟨fun p hp => hout p (.inl hp), fun p hp _ => hout p (.inr hp), fun p hp hp' => by omega,
    fun p hp _ => hout p (.inr (by omega)), fun p hp => hout p (.inr (by omega))⟩

/-- The byte for the augmentation size. -/
theorem Widened.insert {start : Nat} (h : Widened m m₁ start buf stop 0) (hstop : buf ≤ stop)
    (hbuf : start + 4 ≤ buf) :
    Widened m (store (memmove m₁ (buf + 1) buf (stop - buf)) buf [fresh 0]) start buf stop 1 := by
  constructor
  · intro p hp
    rw [store_fresh, if_neg (by omega), memmove_outside (by omega), h.before p hp]
  · intro p hp hp'
    rw [store_fresh, if_neg (by omega), memmove_outside (by omega), h.body p hp hp']
  · intro p hp hp'
    rw [store_fresh, if_pos (by omega)]
  · intro p hp hp'
    have hsrc : p + 1 = buf + 1 + (p - buf) := by omega
    rw [store_fresh, if_neg (by omega), hsrc, memmove_inside (by omega), Nat.add_sub_cancel' hp,
      ← h.rest p hp hp', Nat.add_zero]
  · intro p hp
    rw [store_fresh, if_neg (by omega), memmove_outside (by omega), h.behind p (by omega)]

/-- Where the byte for the augmentation size goes. -/
def sizeAt (o : OutSec) (x : Placed) : Nat :=
  x.newOffset + 8 + peWidth x.entry.fdeEncoding o.ptrSize * 2

theorem editFde_widened (hsize : sizeAt o x ≤ x.newOffset + x.entry.size)
    (h : editFde o x cie m = some m') : ∃ grow, (Inserts o x cie → grow = 1) ∧
      (¬ Inserts o x cie → grow = 0) ∧
      Widened m m' x.newOffset (sizeAt o x) (x.newOffset + x.entry.size) grow := by
  have hptr : Widened m (store m (x.newOffset + 4) ((Endian.put o.bigEndian 4
      (.ofNat 64 (x.newOffset + 4) + o.outputOffset - cie.offset : BitVec 64).toNat).map fresh))
      x.newOffset (sizeAt o x) (x.newOffset + x.entry.size) 0 :=
    widened_pointer (Endian.length_put _ _ _) (Nat.le_add_right _ _) hsize
  rw [editFde] at h
  dsimp only at h
  split at h
  · next hr =>
    cases h
    exact ⟨0, fun hi => absurd hr (by simp [hi.1]), fun _ => rfl, hptr⟩
  · next hr =>
    split at h
    · next hlsda =>
      cases h
      exact ⟨0, fun hi => absurd hlsda hi.2.2, fun _ => rfl,
        hptr.trans ((inPlace_changeValue.trans inPlace_changeValue).trans (inPlace_setLocs _))⟩
    · next hlsda =>
      split at h
      · next hadd =>
        obtain ⟨m₂, hm₂, h⟩ := Option.bind_eq_some_iff.mp h
        obtain ⟨_, _, hm₂⟩ := Option.bind_eq_some_iff.mp hm₂
        cases hm₂
        cases h
        have hlocated := (hptr.trans (inPlace_editLocation (o := o) (x := x))).insert hsize
          (show x.newOffset + 4 ≤ sizeAt o x by unfold sizeAt; omega)
        refine ⟨1, fun _ => rfl, fun hi => absurd ?_ hi, hlocated.trans (inPlace_setLocs _)⟩
        exact ⟨by simpa using hr, hadd, hlsda⟩
      · next hadd =>
        cases h
        exact ⟨0, fun hi => absurd hi.2.1 hadd, fun _ => rfl,
          hptr.trans (inPlace_changeValue.trans (inPlace_setLocs _))⟩

/-! The loop over the entries. -/

/-- What the entries of a section are like that are no terminators. -/
structure Formed (o : OutSec) (x : Placed) : Prop where
  sized : 8 ≤ x.entry.size
  cie : ∀ u full, x.entry.kind = .cie u full → 0 < growth x u → x.entry.makeRelative
  fde : ∀ i, x.entry.kind = .fde i → sizeAt o x ≤ x.newOffset + x.entry.size

theorem grown_of_cie (hk : x.entry.kind = .cie u full) (hs : x.entry.size ≠ 4) :
    x.entry.grown = x.entry.size + 2 * growth x u := by
  obtain ⟨hstr, hdata⟩ := extra_of_cie hk
  rw [Entry.grown, if_neg hs, hstr, hdata]
  omega

theorem grown_of_fde {i : Option Nat} (hk : x.entry.kind = .fde i) (hs : x.entry.size ≠ 4) :
    x.entry.grown = x.entry.size + x.entry.addAugmentationSize.toNat := by
  rw [Entry.grown, if_neg hs, Entry.extraStringBytes, Entry.extraDataBytes, hk]
  rfl

/-- An entry is edited in the room that it has. -/
theorem editEntry_frame (hf : Formed o x) (h : editEntry o cieInf x m = some m')
    (hp : p < x.newOffset ∨ x.newOffset + x.entry.grown ≤ p) : (m' p).origin = (m p).origin := by
  have hsize := hf.sized
  unfold editEntry at h
  split at h
  · next u full hk =>
    have hgrown := grown_of_cie hk (by omega)
    by_cases hedit : x.entry.makeRelative ∨ u.makeLsdaRelative ∨ u.perEncodingRelative
    · obtain ⟨aug, buf, -, -, -, haug, -, hopened⟩ := editCie_opened hk hedit h
      rcases hp with hp | hp
      · exact hopened.before p (by omega)
      · exact hopened.behind p (by omega)
    · rw [editCie_unedited hedit h]
  · next i hk =>
    have hgrown := grown_of_fde hk (by omega)
    obtain ⟨cie, -, h⟩ := Option.bind_eq_some_iff.mp h
    obtain ⟨grow, hone, hzero, hwide⟩ := editFde_widened (hf.fde i hk) h
    rcases hp with hp | hp
    · exact hwide.before p (by omega)
    · apply hwide.behind p
      by_cases hins : Inserts o x cie
      · have := hone hins
        have hadd : x.entry.addAugmentationSize = true := hins.2.1
        rw [hadd] at hgrown
        simp only [Bool.toNat_true] at hgrown
        omega
      · have := hzero hins
        omega

/-- The writer comes to `x`, its length updated, with the contents `m₁`. -/
inductive Reaches (o : OutSec) (cieInf : Entry → Option OutCie) (size : Nat) (x : Placed) :
    List Placed → Contents → Contents → Prop where
  | here (rest : List Placed) (m : Contents) :
      Reaches o cieInf size x (x :: rest) m
        (x.putLength o.bigEndian (distance (nextOffset size rest) x.newOffset) m)
  | skipped {y : Placed} {rest : List Placed} {m m₁ : Contents} (hy : ¬ (y.kept ∧ y.entry.size ≠ 4))
      (h : Reaches o cieInf size x rest m m₁) : Reaches o cieInf size x (y :: rest) m m₁
  | written {y : Placed} {rest : List Placed} {m m' m₁ : Contents} (hy : y.kept ∧ y.entry.size ≠ 4)
      (hm : editEntry o cieInf y
        (y.putLength o.bigEndian (distance (nextOffset size rest) y.newOffset) m) = some m')
      (h : Reaches o cieInf size x rest m' m₁) : Reaches o cieInf size x (y :: rest) m m₁

theorem writeEntries_below (hf : ∀ y ∈ l, y.kept → y.entry.size ≠ 4 → Formed o y)
    (h : writeEntries o cieInf size l m = some m') (hp : ∀ y ∈ l, y.kept → p < y.newOffset) :
    (m' p).origin = (m p).origin := by
  induction l generalizing m with
  | nil =>
    cases h
    rfl
  | cons y rest ih =>
    have hfr := fun z hz => hf z (List.mem_cons_of_mem y hz)
    have hpr := fun z hz => hp z (List.mem_cons_of_mem y hz)
    rw [writeEntries] at h
    split at h
    · next hy =>
      obtain ⟨m₁, hm₁, h⟩ := Option.bind_eq_some_iff.mp h
      have hpy := hp y List.mem_cons_self hy.1
      rw [ih hfr h hpr, editEntry_frame (hf y List.mem_cons_self hy.1 hy.2) hm₁ (.inl hpy),
        putLength_below hpy]
    · exact ih hfr h hpr

theorem putLength_inside {n : Nat} {bigEndian : Bool} (hp : x.newOffset + 4 ≤ p)
    (hp' : p < x.newOffset + x.entry.size) : x.putLength bigEndian n m p = m p := by
  have hstore : store m x.newOffset ((Endian.put bigEndian 4 (distance n 4)).map fresh) p = m p := by
    apply store_outside
    rw [List.length_map, Endian.length_put]
    omega
  unfold Placed.putLength
  split
  · rw [memset_outside (.inl hp'), hstore]
  · exact hstore

/-- What becomes of a kept entry is what its own edit makes of it: the ones before it end where it
begins, and the ones behind it begin where it ends. -/
theorem writeEntries_entry {offset stop : Nat}
    (hf : ∀ y ∈ l, y.kept → y.entry.size ≠ 4 → Formed o y)
    (hc : Chained offset (l.filter Placed.kept) stop) (hstop : stop ≤ size) (hlt : size < 2 ^ 32)
    (h : writeEntries o cieInf size l m = some m') (hx : x ∈ l) (hk : x.kept)
    (hs : x.entry.size ≠ 4) :
    ∃ m₁ m₂, Reaches o cieInf size x l m m₁ ∧ editEntry o cieInf x m₁ = some m₂ ∧
      (∀ p, x.newOffset + 4 ≤ p → p < x.newOffset + x.entry.size →
        (m₁ p).origin = (m p).origin) ∧
      ∀ p, x.newOffset ≤ p → p < x.newOffset + x.entry.grown → (m' p).origin = (m₂ p).origin := by
  induction l generalizing m offset with
  | nil => cases hx
  | cons y rest ih =>
    have hfr := fun z hz => hf z (List.mem_cons_of_mem y hz)
    rw [writeEntries] at h
    split at h
    · next hy =>
      rw [List.filter_cons_of_pos hy.1] at hc
      obtain ⟨-, -, hrest⟩ := hc
      obtain ⟨m₁, hm₁, hwrite⟩ := Option.bind_eq_some_iff.mp h
      have hfy := hf y List.mem_cons_self hy.1 hy.2
      have hgrown := le_grown (e := y.entry)
      have hsize := hfy.sized
      obtain ⟨hge, hle⟩ := hrest.le_nextOffset (fun z hz => (List.mem_filter.mp hz).2) hstop
      rw [nextOffset_filter] at hge hle
      rcases List.mem_cons.mp hx with rfl | hx
      · refine ⟨_, m₁, .here rest m, hm₁, ?_, ?_⟩
        · intro p hp hp'
          rw [putLength_inside hp hp']
        · intro p hp hp'
          apply writeEntries_below hfr hwrite
          intro z hz hkz
          have := (hrest.mem (List.mem_filter.mpr ⟨hz, hkz⟩)).1
          omega
      · obtain ⟨m₂, m₃, hreach, hedit, horigin, hout⟩ := ih hfr hrest hwrite hx
        refine ⟨m₂, m₃, .written hy hm₁ hreach, hedit, ?_, hout⟩
        intro p hp hp'
        have hnew := (hrest.mem (List.mem_filter.mpr ⟨hx, hk⟩)).1
        have hnext : nextOffset size (rest.filter Placed.kept) ≤ x.newOffset :=
          hrest.nextOffset_le (fun z hz => (List.mem_filter.mp hz).2) (List.mem_filter.mpr ⟨hx, hk⟩)
        rw [nextOffset_filter] at hnext
        rw [horigin p hp hp', editEntry_frame hfy hm₁ (.inr (by omega)),
          distance_eq (by omega) (by omega),
          putLength_above (by omega) (by omega) (by omega) (by omega)]
    · next hy =>
      obtain ⟨offset', hc⟩ : ∃ offset', Chained offset' (rest.filter Placed.kept) stop := by
        by_cases hky : y.kept
        · rw [List.filter_cons_of_pos hky] at hc
          exact ⟨_, hc.2.2⟩
        · rw [List.filter_cons_of_neg hky] at hc
          exact ⟨_, hc⟩
      have hx : x ∈ rest := by
        rcases List.mem_cons.mp hx with rfl | hx
        · exact absurd ⟨hk, hs⟩ hy
        · exact hx
      obtain ⟨m₁, m₂, hreach, hedit⟩ := ih hfr hc h hx
      exact ⟨m₁, m₂, .skipped hy hreach, hedit⟩

end FusionBinutils.Bfd.EhFrame
