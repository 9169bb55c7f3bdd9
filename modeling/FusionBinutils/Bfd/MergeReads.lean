import FusionBinutils.Bfd.Merge
import FusionBinutils.Lib.Outcome

/-! What `record_section` and the hashing read (bfd/merge.c). A read outside the contents of the
section, or outside the zero entity behind its strings, ends the run with an error. -/
namespace FusionBinutils.Bfd.MergeReads

open Merge (Kind Input isZero)
open Outcome

inductive Stop
  | outside
  /-- the fuel of a loop is used up -/
  | running
  deriving DecidableEq

/-- What `sec_merge_add` is called with: a pointer into the contents of a section, or `""`. -/
inductive Ptr
  | contents (sec p : Nat)
  | empty

/-- `struct sec_merge_hash_entry`. -/
structure Entry where
  string : Ptr
  hash : BitVec 64
  len : BitVec 32
  alignment : Nat

/-- The entries, the newest first: so they stand in their bucket. -/
abbrev Tab := List Entry

/-! Reading. A pointer is followed by the bytes up to the end of what it points into. -/

/-- The contents of a section. -/
def contents (i : Input) (sec : Nat) : List BfdByte := i.secs.getD sec []

/-- `sec->size`. -/
def size (i : Input) (sec : Nat) : Nat := (contents i sec).length

/-- The bytes from a pointer on. -/
def bytesAt (i : Input) : Ptr → List BfdByte
  | .contents sec p => (i.kind.buffer (contents i sec)).drop p
  | .empty => [0]

def readN (n : Nat) (s : List BfdByte) : Except Stop (List BfdByte) :=
  if n ≤ s.length then .ok (s.take n) else .error .outside

/-- The test for a zero entity, up to the first other byte. -/
def zeroEntity : Nat → List BfdByte → Except Stop Bool
  | 0, _ => .ok true
  | _ + 1, [] => .error .outside
  | n + 1, c :: s => if c ≠ 0 then .ok false else zeroEntity n s

/-- The entities before the terminator. -/
def readString (entsize : Nat) : Nat → List BfdByte → Except Stop (List BfdByte)
  | 0, _ => .error .running
  | fuel + 1, s => do
    if ← zeroEntity entsize s then return []
    let x ← readN entsize s
    let str ← readString entsize fuel (s.drop entsize)
    return x ++ str

/-- What is hashed and compared: a string without its terminator, or a constant. -/
def readBytes (k : Kind) (s : List BfdByte) : Except Stop (List BfdByte) :=
  if k.strings then readString k.entsize (s.length + 1) s else readN k.entsize s

def hashByte (hash : BitVec 64) (c : BfdByte) : BitVec 64 :=
  let c := c.setWidth 32
  let hash := hash + (c + (c <<< 17)).setWidth 64
  hash ^^^ (hash >>> 2)

/-- The hash of the bytes that were read; that of a string counts its entities too. -/
def hashOf (k : Kind) (str : List BfdByte) : BitVec 64 :=
  let hash := str.foldl hashByte 0
  if k.strings then
    let len := BitVec.ofNat 32 (str.length / k.entsize)
    let hash := hash + (len + (len <<< 17)).setWidth 64
    hash ^^^ (hash >>> 2)
  else hash

/-- The length with the terminator of a string, before it becomes an `unsigned int`. -/
def lengthOf (k : Kind) (str : List BfdByte) : Nat :=
  if k.strings then str.length + k.entsize else k.entsize

/-- The search in the bucket, with `memcmp`. It ends at a less aligned copy, which is marked as
deleted. -/
def findEntry (i : Input) (hash : BitVec 64) (len : BitVec 32) (string : Ptr) (alignment : Nat) :
    Tab → Except Stop (Option Entry × Tab)
  | [] => .ok (none, [])
  | e :: tab =>
    if e.hash = hash ∧ len = e.len then do
      let a ← readN len.toNat (bytesAt i e.string)
      let b ← readN len.toNat (bytesAt i string)
      if a = b then
        if e.alignment < alignment then return (none, { e with len := 0, alignment := 0 } :: tab)
        else return (some e, e :: tab)
      else do
        let (found, tab) ← findEntry i hash len string alignment tab
        return (found, e :: tab)
    else do
      let (found, tab) ← findEntry i hash len string alignment tab
      return (found, e :: tab)

/-- `sec_merge_hash_lookup` with `create`, as `sec_merge_add` calls it. An entity size of 1 has a
loop of its own in the source, which is this one. -/
def secMergeAdd (i : Input) (string : Ptr) (alignment : Nat) (tab : Tab) :
    Except Stop (Entry × Tab) := do
  let str ← readBytes i.kind (bytesAt i string)
  let hash := hashOf i.kind str
  let len := BitVec.ofNat 32 (lengthOf i.kind str)
  let (found, tab) ← findEntry i hash len string alignment tab
  match found with
  | some entry => return (entry, tab)
  | none =>
    let entry := { string := string, hash := hash, len := len, alignment := alignment }
    return (entry, entry :: tab)

/-! `record_section`. -/

/-- The loop over zero entities behind a string. For entities of one byte the source has this loop
with `""` as the string. -/
def recordZeros (i : Input) (sec : Nat) : Nat → Nat → Bool → Tab → Except Stop (Nat × Bool × Tab)
  | 0, _, _, _ => .error .running
  | fuel + 1, p, nul, tab =>
    if p < size i sec then do
      let zero ← zeroEntity i.kind.entsize (bytesAt i (.contents sec p))
      if !zero then return (p, nul, tab)
      else if !nul && (p &&& i.kind.mask) == 0 then do
        let string := if i.kind.entsize = 1 then Ptr.empty else .contents sec p
        let (_, tab) ← secMergeAdd i string (i.kind.mask + 1) tab
        recordZeros i sec fuel (p + i.kind.entsize) true tab
      else recordZeros i sec fuel (p + i.kind.entsize) nul tab
    else return (p, nul, tab)

/-- The loop over strings; a length that is 0 as an `unsigned int` keeps it at its place. -/
def recordStrings (i : Input) (sec : Nat) : Nat → Nat → Bool → Tab → Except Stop Tab
  | 0, _, _, _ => .error .running
  | fuel + 1, p, nul, tab =>
    if p < size i sec then do
      let (entry, tab) ← secMergeAdd i (.contents sec p) (i.kind.eltalign p) tab
      let (p, nul, tab) ← recordZeros i sec (size i sec + 1) (p + entry.len.toNat) nul tab
      recordStrings i sec fuel p nul tab
    else return tab

/-- The loop over constants. -/
def recordConstants (i : Input) (sec : Nat) : Nat → Nat → Tab → Except Stop Tab
  | 0, _, _ => .error .running
  | fuel + 1, p, tab =>
    if p < size i sec then do
      let (_, tab) ← secMergeAdd i (.contents sec p) 1 tab
      recordConstants i sec fuel (p + i.kind.entsize) tab
    else return tab

/-- `record_section`, when there is memory for the entries. -/
def recordSection (i : Input) (fuel sec : Nat) (tab : Tab) : Except Stop Tab :=
  if i.kind.strings then recordStrings i sec fuel 0 false tab
  else recordConstants i sec fuel 0 tab

/-- The tables that recording some of the sections leads to. -/
inductive Recorded (i : Input) : Tab → Prop
  | start : Recorded i []
  | next {tab tab' : Tab} {fuel sec : Nat} : Recorded i tab → sec < i.secs.length →
      recordSection i fuel sec tab = .ok tab' → Recorded i tab'

/-- However long it runs, recording the section reads nothing outside. -/
def Inside (i : Input) (sec : Nat) (tab : Tab) : Prop :=
  ∀ fuel, recordSection i fuel sec tab ≠ .error .outside

/-! The condition on the contents. -/

/-- The entity at offset `q` of the contents. -/
def entity (k : Kind) (c : List BfdByte) (q : Nat) : List BfdByte :=
  ((k.buffer c).drop q).take k.entsize

/-- Some string, with its terminator, is longer than an `unsigned int` can say. -/
def LongString (k : Kind) (c : List BfdByte) : Prop :=
  ∃ m n, (m + n) * k.entsize ≤ c.length ∧ 2 ^ 32 ≤ (n + 1) * k.entsize ∧
    ∀ j < n, isZero (entity k c ((m + j) * k.entsize)) = false

/-- What stands behind the last whole entity is zero. -/
def ZeroTail (k : Kind) (c : List BfdByte) : Prop :=
  isZero (c.drop (c.length / k.entsize * k.entsize)) = true

/-- All bytes that could stand behind a whole entity are zero. -/
def ZeroEnd (k : Kind) (c : List BfdByte) : Prop :=
  isZero (c.drop (c.length + 1 - k.entsize)) = true

/-- Constants fill the section. Strings leave only zeros behind the last whole entity; where they
can be so long that the place of the next one is lost, this is so for every place. -/
def Covered (k : Kind) (c : List BfdByte) : Prop :=
  if k.strings then
    (k.entsize ∣ 2 ^ 32 ∨ ¬ LongString k c) ∧ ZeroTail k c ∨ ZeroEnd k c
  else k.entsize ∣ c.length

variable {i : Input} {e n p q sec fuel alignment : Nat} {s str : List BfdByte} {nul : Bool}
  {string : Ptr} {hash : BitVec 64} {len : BitVec 32} {tab tab' : Tab} {P : Nat → Prop}

/-! Entities and strings. -/

theorem zeroEntity_of_le (h : e ≤ s.length) : zeroEntity e s = .ok (isZero (s.take e)) := by
  induction e generalizing s with
  | zero => rfl
  | succ e ih =>
    cases s with
    | nil => simp at h
    | cons c s =>
      rw [zeroEntity]
      by_cases hc : c = 0
      · rw [if_neg (by simpa using hc), ih (by simpa using h)]
        simp [isZero, hc]
      · have hne : (c == 0) = false := by simpa using hc
        rw [if_pos hc, List.take_succ_cons, isZero, List.all_cons, hne, Bool.false_and]

theorem zeroEntity_of_lt (h : s.length < e) :
    zeroEntity e s = .error .outside ∨ zeroEntity e s = .ok false := by
  induction e generalizing s with
  | zero => omega
  | succ e ih =>
    cases s with
    | nil => exact .inl rfl
    | cons c s =>
      rw [zeroEntity]
      split
      · exact .inr rfl
      · exact ih (by simpa using h)

theorem readN_of_le (h : e ≤ s.length) : readN e s = .ok (s.take e) := if_pos h

theorem readN_of_lt (h : s.length < e) : readN e s = .error .outside := if_neg (by omega)

/-- The string up to the first zero entity. -/
theorem readString_ok (hn : (n + 1) * e ≤ s.length)
    (hzero : isZero ((s.drop (n * e)).take e) = true)
    (hbefore : ∀ j < n, isZero ((s.drop (j * e)).take e) = false) (hfuel : n < fuel) :
    readString e fuel s = .ok (s.take (n * e)) := by
  induction n generalizing s fuel with
  | zero =>
    obtain ⟨fuel, rfl⟩ : ∃ k, fuel = k + 1 := ⟨fuel - 1, by omega⟩
    rw [zero_mul, List.drop_zero] at hzero
    rw [readString, zeroEntity_of_le (by omega), hzero, zero_mul, List.take_zero]
    rfl
  | succ n ih =>
    obtain ⟨fuel, rfl⟩ : ∃ k, fuel = k + 1 := ⟨fuel - 1, by omega⟩
    have hsplit : (n + 1) * e = e + n * e := by rw [Nat.succ_mul, Nat.add_comm]
    have hfirst : isZero (s.take e) = false := by simpa using hbefore 0 (by omega)
    have hlen : e ≤ s.length := by
      rw [Nat.succ_mul] at hn
      omega
    have hrest : readString e fuel (s.drop e) = .ok ((s.drop e).take (n * e)) := by
      apply ih
      · rw [List.length_drop]
        rw [Nat.succ_mul] at hn
        omega
      · rwa [List.drop_drop, ← hsplit]
      · intro j hj
        rw [List.drop_drop, ← Nat.add_comm (j * e), ← Nat.succ_mul]
        exact hbefore (j + 1) (by omega)
      · omega
    rw [readString, zeroEntity_of_le hlen, hfirst, readN_of_le hlen, hrest, hsplit, List.take_add]
    rfl

/-- Without a zero entity the string is read on to the end and beyond. -/
theorem readString_outside (he : 0 < e)
    (hnone : ∀ n, (n + 1) * e ≤ s.length → isZero ((s.drop (n * e)).take e) = false)
    (hfuel : s.length < fuel) : readString e fuel s = .error .outside := by
  induction fuel generalizing s with
  | zero => omega
  | succ fuel ih =>
    rw [readString]
    rcases Nat.lt_or_ge s.length e with hshort | hlen
    · rcases zeroEntity_of_lt hshort with h | h
      · rw [h]
        rfl
      · rw [h, readN_of_lt hshort]
        rfl
    · have hfirst : isZero (s.take e) = false := by simpa using hnone 0 (by omega)
      have hrest : readString e fuel (s.drop e) = .error .outside := by
        apply ih
        · intro n hn
          rw [List.length_drop] at hn
          rw [List.drop_drop, ← Nat.add_comm (n * e), ← Nat.succ_mul]
          apply hnone
          rw [Nat.succ_mul]
          omega
        · rw [List.length_drop]
          omega
      rw [zeroEntity_of_le hlen, hfirst, readN_of_le hlen, hrest]
      rfl

/-! The hash table: what its entries point at can be read. -/

def Readable (i : Input) (tab : Tab) : Prop :=
  ∀ x ∈ tab, x.len.toNat ≤ (bytesAt i x.string).length

theorem findEntry_meets (htab : Readable i tab) (hlen : len.toNat ≤ (bytesAt i string).length) :
    Meets (fun _ => False)
      (fun r => Readable i r.2 ∧ ∀ x, r.1 = some x → x.len = len)
      (findEntry i hash len string alignment tab) := by
  induction tab with
  | nil =>
    refine ⟨htab, ?_⟩
    intro x hx
    cases hx
  | cons x tab ih =>
    have hx := htab x List.mem_cons_self
    have hrest : Readable i tab := fun y hy => htab y (List.mem_cons_of_mem x hy)
    have hgoon : Meets (fun _ => False)
        (fun r => Readable i r.2 ∧ ∀ y, r.1 = some y → y.len = len)
        (do
          let (found, tab) ← findEntry i hash len string alignment tab
          return (found, x :: tab)) := by
      apply (ih hrest).bind
      rintro ⟨found, tab'⟩ ⟨htab', hfound⟩
      refine ⟨?_, hfound⟩
      intro y hy
      rcases List.mem_cons.mp hy with rfl | hy
      · exact hx
      · exact htab' y hy
    rw [findEntry]
    split
    case isFalse => exact hgoon
    case isTrue hsame =>
      obtain ⟨_, hlenx⟩ := hsame
      rw [readN_of_le (hlenx ▸ hx), readN_of_le hlen]
      refine meets_ite (fun _ => meets_ite (fun _ => ?_) fun _ => ?_) fun _ => hgoon
      · refine ⟨?_, ?_⟩
        · intro y hy
          rcases List.mem_cons.mp hy with rfl | hy
          · exact Nat.zero_le _
          · exact hrest y hy
        · intro y hy
          cases hy
      · refine ⟨htab, ?_⟩
        intro y hy
        cases hy
        exact hlenx.symm

/-- What is added, when its bytes can be read. -/
theorem secMergeAdd_meets (htab : Readable i tab)
    (hstr : readBytes i.kind (bytesAt i string) = .ok str)
    (hlen : lengthOf i.kind str ≤ (bytesAt i string).length) :
    Meets (fun _ => False)
      (fun r => Readable i r.2 ∧ r.1.len = BitVec.ofNat 32 (lengthOf i.kind str))
      (secMergeAdd i string alignment tab) := by
  have hread : (BitVec.ofNat 32 (lengthOf i.kind str)).toNat ≤ (bytesAt i string).length := by
    rw [BitVec.toNat_ofNat]
    exact (Nat.mod_le _ _).trans hlen
  rw [secMergeAdd, hstr]
  apply (findEntry_meets htab hread).bind
  rintro ⟨found, tab'⟩ ⟨htab', hfound⟩
  cases found with
  | some x => exact ⟨htab', hfound x rfl⟩
  | none =>
    refine ⟨?_, rfl⟩
    intro y hy
    rcases List.mem_cons.mp hy with rfl | hy
    · exact hread
    · exact htab' y hy

/-- From one multiple to a greater one. -/
theorem add_le_of_dvd (hp : e ∣ p) (hq : e ∣ q) (h : p < q) : p + e ≤ q := by
  obtain ⟨a, rfl⟩ := hp
  obtain ⟨b, rfl⟩ := hq
  exact Nat.mul_le_mul_left e (Nat.lt_of_mul_lt_mul_left h)

/-! The strings of one section. -/

section Strings

variable {k : Kind} {c : List BfdByte} (hk : k.strings = true)

/-- From `p` on, the first zero entity is the one of number `n`. -/
def FirstZero (k : Kind) (c : List BfdByte) (p n : Nat) : Prop :=
  p + n * k.entsize ≤ c.length ∧ isZero (entity k c (p + n * k.entsize)) = true ∧
    ∀ j < n, isZero (entity k c (p + j * k.entsize)) = false

theorem exists_firstZero (h : p + n * k.entsize ≤ c.length)
    (hzero : isZero (entity k c (p + n * k.entsize)) = true) : ∃ m, FirstZero k c p m := by
  induction n using Nat.strong_induction_on with
  | _ n ih =>
    by_cases hbefore : ∃ j < n, isZero (entity k c (p + j * k.entsize)) = true
    · obtain ⟨j, hj, hzeroj⟩ := hbefore
      have hle : j * k.entsize ≤ n * k.entsize := Nat.mul_le_mul_right _ hj.le
      exact ih j hj (by omega) hzeroj
    · refine ⟨n, h, hzero, ?_⟩
      intro j hj
      rw [← Bool.not_eq_true]
      exact fun hz => hbefore ⟨j, hj, hz⟩

include hk in
theorem length_buffer : (k.buffer c).length = c.length + k.entsize := by
  rw [Kind.buffer, if_pos hk, List.length_append, List.length_replicate]

include hk in
/-- A last entity that reaches into the zeros behind the section. -/
theorem isZero_entity_last (hq : q ≤ c.length) (hlast : c.length ≤ q + k.entsize) :
    isZero (entity k c q) = isZero (c.drop q) := by
  have hfull : (c.drop q).length ≤ k.entsize := by
    rw [List.length_drop]
    omega
  rw [entity, Kind.buffer, if_pos hk, List.drop_append_of_le_length hq,
    List.take_append, List.take_of_length_le hfull, List.take_replicate, isZero, List.all_append,
    List.all_replicate]
  simp [isZero]

include hk in
theorem readBytes_string (he : 0 < k.entsize) (h : FirstZero k c p n) :
    ∃ str, readBytes k ((k.buffer c).drop p) = .ok str ∧ lengthOf k str = (n + 1) * k.entsize ∧
      (n + 1) * k.entsize ≤ ((k.buffer c).drop p).length := by
  obtain ⟨hin, hzero, hbefore⟩ := h
  have hlen : ((k.buffer c).drop p).length = c.length + k.entsize - p := by
    rw [List.length_drop, length_buffer hk]
  have hsplit : (n + 1) * k.entsize = n * k.entsize + k.entsize := Nat.succ_mul _ _
  have hfits : (n + 1) * k.entsize ≤ ((k.buffer c).drop p).length := by
    rw [hlen]
    omega
  refine ⟨((k.buffer c).drop p).take (n * k.entsize), ?_, ?_, hfits⟩
  · rw [readBytes, if_pos hk]
    apply readString_ok hfits
    · rwa [List.drop_drop]
    · intro j hj
      rw [List.drop_drop]
      exact hbefore j hj
    · have hmul : n + 1 ≤ (n + 1) * k.entsize := Nat.le_mul_of_pos_right _ he
      omega
  · rw [lengthOf, if_pos hk, List.length_take, Nat.min_eq_left (by omega), hsplit]

include hk in
theorem readBytes_outside (he : 0 < k.entsize)
    (hnone : ∀ n, p + n * k.entsize ≤ c.length →
      isZero (entity k c (p + n * k.entsize)) = false) :
    readBytes k ((k.buffer c).drop p) = .error .outside := by
  rw [readBytes, if_pos hk]
  apply readString_outside he _ (Nat.lt_succ_self _)
  intro n hn
  rw [List.length_drop, length_buffer hk, Nat.succ_mul] at hn
  rw [List.drop_drop]
  apply hnone
  omega

/-- Where no string is too long, the length of each is what an `unsigned int` holds. -/
theorem length_lt_of_short (hshort : ¬ LongString k c) (hdvd : k.entsize ∣ p)
    (h : FirstZero k c p n) : (n + 1) * k.entsize < 2 ^ 32 := by
  by_contra hge
  obtain ⟨hin, _, hbefore⟩ := h
  obtain ⟨m, rfl⟩ := hdvd
  apply hshort
  refine ⟨m, n, ?_, Nat.le_of_not_lt hge, ?_⟩
  · rwa [Nat.add_mul, Nat.mul_comm m]
  · intro j hj
    rw [Nat.add_mul, Nat.mul_comm m]
    exact hbefore j hj

theorem tail_lt (htail : ¬ ZeroTail k c) : c.length / k.entsize * k.entsize < c.length := by
  rcases Nat.eq_or_lt_of_le (Nat.div_mul_le_self c.length k.entsize) with heq | hlt
  · exfalso
    apply htail
    rw [ZeroTail, heq, List.drop_length]
    rfl
  · exact hlt

theorem le_tail (he : 0 < k.entsize) (hdvd : k.entsize ∣ p) (hp : p ≤ c.length) :
    p ≤ c.length / k.entsize * k.entsize := by
  obtain ⟨m, rfl⟩ := hdvd
  rw [Nat.mul_comm] at hp ⊢
  exact Nat.mul_le_mul_right _ ((Nat.le_div_iff_mul_le he).mpr hp)

include hk in
/-- The last entity, which the zeros behind the section complete. -/
theorem isZero_tail (he : 0 < k.entsize) :
    isZero (entity k c (c.length / k.entsize * k.entsize)) = true ↔ ZeroTail k c := by
  have hmod := Nat.div_add_mod' c.length k.entsize
  have hlt := Nat.mod_lt c.length he
  rw [isZero_entity_last hk (Nat.div_mul_le_self _ _) (by omega)]
  exact Iff.rfl

include hk in
/-- No zero entity reaches beyond a tail that is not zero. -/
theorem add_le_tail (he : 0 < k.entsize) (htail : ¬ ZeroTail k c) (hdvd : k.entsize ∣ p)
    (hp : p ≤ c.length) (hzero : isZero (entity k c p) = true) :
    p + k.entsize ≤ c.length / k.entsize * k.entsize := by
  rcases Nat.eq_or_lt_of_le (le_tail he hdvd hp) with rfl | hlt
  · exact absurd ((isZero_tail hk he).mp hzero) htail
  · exact add_le_of_dvd hdvd (Nat.dvd_mul_left _ _) hlt

end Strings

theorem entsize_pos (i : Input) : 0 < i.kind.entsize := by
  have h := i.accepted
  simp only [Kind.accepts, ne_eq, decide_not, Bool.and_eq_true, Bool.not_eq_true',
    decide_eq_false_iff_not] at h
  omega

theorem length_contents : (contents i sec).length = size i sec := rfl

theorem bytesAt_contents :
    bytesAt i (.contents sec p) = (i.kind.buffer (contents i sec)).drop p := rfl

section Loops

variable (hk : i.kind.strings = true) (htab : Readable i tab)
include hk htab

/-- A string is added with its length, as far as an `unsigned int` holds it. -/
theorem secMergeAdd_string (alignment : Nat) (h : FirstZero i.kind (contents i sec) p n) :
    Meets (fun _ => False)
      (fun r => Readable i r.2 ∧ r.1.len.toNat = (n + 1) * i.kind.entsize % 2 ^ 32)
      (secMergeAdd i (.contents sec p) alignment tab) := by
  obtain ⟨str, hstr, hlen, hfits⟩ := readBytes_string hk (entsize_pos i) h
  rw [← bytesAt_contents] at hstr
  have hle : lengthOf i.kind str ≤ (bytesAt i (.contents sec p)).length := by
    rw [hlen]
    exact hfits
  apply (secMergeAdd_meets htab hstr hle).mono
  rintro r ⟨hreadable, hr⟩
  refine ⟨hreadable, ?_⟩
  rw [hr, hlen, BitVec.toNat_ofNat]

/-- A zero entity is added, as the literal where it is one byte. -/
theorem secMergeAdd_zero (hp : p ≤ size i sec)
    (hzero : isZero (entity i.kind (contents i sec) p) = true) :
    Meets (fun _ => False) (fun r => Readable i r.2)
      (secMergeAdd i (if i.kind.entsize = 1 then .empty else .contents sec p) alignment tab) := by
  split
  case isTrue hone =>
    have hstr : readBytes i.kind (bytesAt i .empty) = .ok [] := by
      rw [readBytes, if_pos hk, hone]
      rfl
    have hlen : lengthOf i.kind [] ≤ (bytesAt i .empty).length := by
      rw [lengthOf, if_pos hk, hone]
      exact le_rfl
    exact (secMergeAdd_meets htab hstr hlen).mono fun r h => h.1
  case isFalse =>
    have hfirst : FirstZero i.kind (contents i sec) p 0 := by
      refine ⟨by rwa [zero_mul], by rwa [zero_mul], ?_⟩
      intro j hj
      omega
    exact (secMergeAdd_string hk htab alignment hfirst).mono fun r h => h.1

omit htab in
theorem zeroEntity_contents (hp : p ≤ size i sec) :
    zeroEntity i.kind.entsize (bytesAt i (.contents sec p))
      = .ok (isZero (entity i.kind (contents i sec) p)) := by
  rw [bytesAt_contents, zeroEntity_of_le, entity]
  rw [List.length_drop, length_buffer hk, length_contents]
  omega

/-- The loop over zero entities reads them only, and keeps what goes on from one to the next. -/
theorem recordZeros_meets
    (hnext : ∀ p, P p → p < size i sec → isZero (entity i.kind (contents i sec) p) = true →
      P (p + i.kind.entsize))
    (hp : P p) (hfuel : size i sec - p < fuel) :
    Meets (fun _ => False) (fun r => P r.1 ∧ p ≤ r.1 ∧ Readable i r.2.2)
      (recordZeros i sec fuel p nul tab) := by
  have he := entsize_pos i
  induction fuel generalizing p nul tab with
  | zero => omega
  | succ fuel ih =>
    have hgoon : ∀ {nul tab}, Readable i tab → p < size i sec →
        isZero (entity i.kind (contents i sec) p) = true →
        Meets (fun _ => False) (fun r => P r.1 ∧ p ≤ r.1 ∧ Readable i r.2.2)
          (recordZeros i sec fuel (p + i.kind.entsize) nul tab) := by
      intro nul tab htab hlt hzero
      apply (ih htab (hnext p hp hlt hzero) (by omega)).mono
      rintro r ⟨hP, hle, hreadable⟩
      exact ⟨hP, by omega, hreadable⟩
    rw [recordZeros]
    refine meets_ite (fun hlt => ?_) fun _ => ⟨hp, le_rfl, htab⟩
    rw [zeroEntity_contents hk hlt.le]
    refine Meets.bind (P := fun z => z = isZero (entity i.kind (contents i sec) p)) rfl ?_
    rintro _ rfl
    refine meets_ite (fun _ => ⟨hp, le_rfl, htab⟩) fun hz => ?_
    have hzero : isZero (entity i.kind (contents i sec) p) = true := by simpa using hz
    refine meets_ite (fun _ => ?_) fun _ => hgoon htab hlt hzero
    apply (secMergeAdd_zero hk htab hlt.le hzero).bind
    rintro ⟨_, tab'⟩ htab'
    exact hgoon htab' hlt hzero

/-- The strings of a section are read within it, when from every place that the loop comes to there
is a zero entity. -/
theorem recordStrings_meets
    (hscan : ∀ p, P p → p < size i sec → ∃ n, FirstZero i.kind (contents i sec) p n ∧
      P (p + (n + 1) * i.kind.entsize % 2 ^ 32))
    (hnext : ∀ p, P p → p < size i sec → isZero (entity i.kind (contents i sec) p) = true →
      P (p + i.kind.entsize))
    (hp : P p) :
    Meets (fun x => x = .running) (Readable i) (recordStrings i sec fuel p nul tab) := by
  induction fuel generalizing p nul tab with
  | zero => rfl
  | succ fuel ih =>
    rw [recordStrings]
    refine meets_ite (fun hlt => ?_) fun _ => htab
    obtain ⟨n, hfirst, hP⟩ := hscan p hp hlt
    apply (secMergeAdd_string hk htab _ hfirst).weaken.bind
    rintro ⟨entry, tab'⟩ ⟨htab', hlen⟩
    dsimp only at hlen
    rw [← hlen] at hP
    apply (recordZeros_meets hk htab' hnext hP (by omega)).weaken.bind
    rintro ⟨p', nul', tab''⟩ ⟨hP', _, htab''⟩
    exact ih htab'' hP'

/-- Strings that leave more than zeros behind the last whole entity are read on beyond it, unless
one of them is too long. -/
theorem recordStrings_outside (hshort : ¬ LongString i.kind (contents i sec))
    (htail : ¬ ZeroTail i.kind (contents i sec)) (hp : i.kind.entsize ∣ p)
    (hlt : p ≤ size i sec / i.kind.entsize * i.kind.entsize) (hfuel : size i sec - p < fuel) :
    recordStrings i sec fuel p nul tab = .error .outside := by
  have he := entsize_pos i
  have htaillt : size i sec / i.kind.entsize * i.kind.entsize < size i sec := tail_lt htail
  induction fuel generalizing p nul tab with
  | zero => omega
  | succ fuel ih =>
    have hpsize : p < size i sec := by omega
    rw [recordStrings, if_pos hpsize]
    by_cases hzero : ∃ n, p + n * i.kind.entsize ≤ size i sec ∧
        isZero (entity i.kind (contents i sec) (p + n * i.kind.entsize)) = true
    · obtain ⟨m, hm, hzerom⟩ := hzero
      obtain ⟨n, hfirst⟩ := exists_firstZero hm hzerom
      obtain ⟨⟨entry, tab'⟩, hadd, htab', hlen⟩ :=
        (secMergeAdd_string hk htab (i.kind.eltalign p) hfirst).exists_ok
      have hlt32 := length_lt_of_short hshort hp hfirst
      obtain ⟨hin, hz, _⟩ := hfirst
      have hdvdn : i.kind.entsize ∣ p + n * i.kind.entsize := hp.add (Nat.dvd_mul_left _ _)
      have hnextp : p + entry.len.toNat = p + n * i.kind.entsize + i.kind.entsize := by
        dsimp only at hlen
        rw [hlen, Nat.mod_eq_of_lt hlt32, Nat.succ_mul, Nat.add_assoc]
      have hbound := add_le_tail hk he htail hdvdn hin hz
      have hmeets : Meets (fun _ => False)
          (fun r => (i.kind.entsize ∣ r.1 ∧
            r.1 ≤ size i sec / i.kind.entsize * i.kind.entsize) ∧
            p + entry.len.toNat ≤ r.1 ∧ Readable i r.2.2)
          (recordZeros i sec (size i sec + 1) (p + entry.len.toNat) nul tab') := by
        rw [hnextp]
        apply recordZeros_meets (P := fun p => i.kind.entsize ∣ p ∧
          p ≤ size i sec / i.kind.entsize * i.kind.entsize) hk htab'
        · intro p hP hlt hz
          exact ⟨hP.1.add dvd_rfl, add_le_tail hk he htail hP.1 hlt.le hz⟩
        · exact ⟨hdvdn.add dvd_rfl, hbound⟩
        · omega
      obtain ⟨⟨p', nul', tab''⟩, hzeros, ⟨hp', hple'⟩, hpp', htab''⟩ := hmeets.exists_ok
      have hrest : recordStrings i sec fuel p' nul' tab'' = .error .outside := by
        apply ih htab'' hp' hple'
        dsimp only at hpp'
        omega
      rw [hadd]
      change (recordZeros i sec (size i sec + 1) (p + entry.len.toNat) nul tab' >>= _) = _
      rw [hzeros]
      exact hrest
    · have hnone : ∀ n, p + n * i.kind.entsize ≤ (contents i sec).length →
          isZero (entity i.kind (contents i sec) (p + n * i.kind.entsize)) = false := by
        intro n hn
        rw [← Bool.not_eq_true]
        exact fun hz => hzero ⟨n, hn, hz⟩
      have hread := readBytes_outside hk he hnone
      rw [secMergeAdd, bytesAt_contents, hread]
      rfl

end Loops

/-! Constants. -/

section Constants

variable (hk : i.kind.strings = false) (htab : Readable i tab)

include hk in
theorem readBytes_constant :
    readBytes i.kind (bytesAt i (.contents sec p))
      = readN i.kind.entsize ((contents i sec).drop p) := by
  rw [readBytes, if_neg (by simp [hk]), bytesAt, Kind.buffer, if_neg (by simp [hk])]

include hk htab

theorem secMergeAdd_constant (alignment : Nat) (hp : p + i.kind.entsize ≤ size i sec) :
    Meets (fun _ => False) (fun r => Readable i r.2)
      (secMergeAdd i (.contents sec p) alignment tab) := by
  have hle : i.kind.entsize ≤ ((contents i sec).drop p).length := by
    rw [List.length_drop]
    exact Nat.le_sub_of_add_le' hp
  have hstr : readBytes i.kind (bytesAt i (.contents sec p))
      = .ok (((contents i sec).drop p).take i.kind.entsize) := by
    rw [readBytes_constant hk, readN_of_le hle]
  refine (secMergeAdd_meets htab hstr ?_).mono fun r h => h.1
  rw [lengthOf, if_neg (by simp [hk]), bytesAt, Kind.buffer, if_neg (by simp [hk])]
  exact hle

theorem recordConstants_meets (hdvd : i.kind.entsize ∣ size i sec) (hp : i.kind.entsize ∣ p) :
    Meets (fun x => x = .running) (Readable i) (recordConstants i sec fuel p tab) := by
  induction fuel generalizing p tab with
  | zero => rfl
  | succ fuel ih =>
    rw [recordConstants]
    refine meets_ite (fun hlt => ?_) fun _ => htab
    apply (secMergeAdd_constant hk htab _ (add_le_of_dvd hp hdvd hlt)).weaken.bind
    rintro ⟨_, tab'⟩ htab'
    exact ih htab' (hp.add dvd_rfl)

/-- The last constant is read beyond the section where the constants do not fill it. -/
theorem recordConstants_outside (hdvd : ¬ i.kind.entsize ∣ size i sec) (hp : i.kind.entsize ∣ p)
    (hle : p ≤ size i sec) (hfuel : size i sec - p < fuel) :
    recordConstants i sec fuel p tab = .error .outside := by
  have he := entsize_pos i
  induction fuel generalizing p tab with
  | zero => omega
  | succ fuel ih =>
    have hlt : p < size i sec := by
      rcases Nat.eq_or_lt_of_le hle with rfl | hlt
      · exact absurd hp hdvd
      · exact hlt
    rw [recordConstants, if_pos hlt]
    rcases Nat.lt_or_ge (size i sec) (p + i.kind.entsize) with hover | hin
    · have hread : readN i.kind.entsize ((contents i sec).drop p) = .error .outside := by
        apply readN_of_lt
        rw [List.length_drop]
        exact Nat.sub_lt_left_of_lt_add hle hover
      rw [secMergeAdd, readBytes_constant hk, hread]
      rfl
    · obtain ⟨⟨_, tab'⟩, hadd, htab'⟩ :=
        (secMergeAdd_constant hk htab 1 hin).exists_ok
      rw [hadd]
      exact ih htab' (hp.add dvd_rfl) hin (by omega)

end Constants

/-! Any recording leaves a table whose entries can be read. -/

theorem readString_length (h : readString e fuel s = .ok str) : str.length + e ≤ s.length := by
  induction fuel generalizing s str with
  | zero => cases h
  | succ fuel ih =>
    rw [readString] at h
    rcases Nat.lt_or_ge s.length e with hshort | hlen
    · rcases zeroEntity_of_lt hshort with hz | hz
      · rw [hz] at h
        cases h
      · rw [hz, readN_of_lt hshort] at h
        cases h
    · rw [zeroEntity_of_le hlen, readN_of_le hlen] at h
      cases hz : isZero (s.take e) with
      | true =>
        rw [hz] at h
        cases h
        simpa using hlen
      | false =>
        cases hrest : readString e fuel (s.drop e) with
        | error x =>
          rw [hz, hrest] at h
          cases h
        | ok rest =>
          have hih := ih hrest
          rw [hz, hrest] at h
          cases h
          rw [List.length_append, List.length_take, Nat.min_eq_left hlen]
          rw [List.length_drop] at hih
          omega

theorem readBytes_length (h : readBytes i.kind s = .ok str) : lengthOf i.kind str ≤ s.length := by
  rw [readBytes] at h
  rw [lengthOf]
  split at h
  case isTrue hk =>
    rw [if_pos hk]
    exact readString_length h
  case isFalse hk =>
    rw [if_neg hk]
    by_contra hlt
    rw [readN_of_lt (Nat.lt_of_not_le hlt)] at h
    cases h

theorem secMergeAdd_readable (htab : Readable i tab) :
    Meets (fun _ => True) (fun r => Readable i r.2) (secMergeAdd i string alignment tab) := by
  cases hstr : readBytes i.kind (bytesAt i string) with
  | error x =>
    rw [secMergeAdd, hstr]
    trivial
  | ok str =>
    exact (secMergeAdd_meets htab hstr (readBytes_length hstr)).weaken.mono fun r h => h.1

theorem recordZeros_readable (htab : Readable i tab) :
    Meets (fun _ => True) (fun r => Readable i r.2.2) (recordZeros i sec fuel p nul tab) := by
  induction fuel generalizing p nul tab with
  | zero => trivial
  | succ fuel ih =>
    rw [recordZeros]
    refine meets_ite (fun _ => ?_) fun _ => htab
    apply (meets_any _).bind
    intro zero _
    refine meets_ite (fun _ => htab) fun _ => meets_ite (fun _ => ?_) fun _ => ih htab
    apply (secMergeAdd_readable htab).bind
    rintro ⟨_, tab'⟩ htab'
    exact ih htab'

theorem recordStrings_readable (htab : Readable i tab) :
    Meets (fun _ => True) (Readable i) (recordStrings i sec fuel p nul tab) := by
  induction fuel generalizing p nul tab with
  | zero => trivial
  | succ fuel ih =>
    rw [recordStrings]
    refine meets_ite (fun _ => ?_) fun _ => htab
    apply (secMergeAdd_readable htab).bind
    rintro ⟨entry, tab'⟩ htab'
    apply (recordZeros_readable htab').bind
    rintro ⟨p', nul', tab''⟩ htab''
    exact ih htab''

theorem recordConstants_readable (htab : Readable i tab) :
    Meets (fun _ => True) (Readable i) (recordConstants i sec fuel p tab) := by
  induction fuel generalizing p tab with
  | zero => trivial
  | succ fuel ih =>
    rw [recordConstants]
    refine meets_ite (fun _ => ?_) fun _ => htab
    apply (secMergeAdd_readable htab).bind
    rintro ⟨_, tab'⟩ htab'
    exact ih htab'

theorem Recorded.readable (h : Recorded i tab) : Readable i tab := by
  induction h with
  | start =>
    intro x hx
    cases hx
  | @next tab tab' fuel sec _ _ hrec ih =>
    have hmeets : Meets (fun _ => True) (Readable i) (recordSection i fuel sec tab) :=
      meets_ite (fun _ => recordStrings_readable ih) fun _ => recordConstants_readable ih
    rw [hrec] at hmeets
    exact hmeets

/-! When everything that is read lies inside. -/

theorem isZero_drop (h : isZero (s.drop p) = true) (hpq : p ≤ q) : isZero (s.drop q) = true := by
  obtain ⟨d, rfl⟩ := Nat.exists_eq_add_of_le hpq
  rw [isZero, List.all_eq_true] at h ⊢
  intro x hx
  rw [← List.drop_drop] at hx
  exact h x (List.mem_of_mem_drop hx)

/-- Where the last bytes are all zero, there is a zero entity from every place on. -/
theorem exists_firstZero_of_end (hk : i.kind.strings = true)
    (hend : ZeroEnd i.kind (contents i sec)) (hp : p < size i sec) :
    ∃ n, FirstZero i.kind (contents i sec) p n := by
  have he := entsize_pos i
  have hmod := Nat.div_add_mod' (size i sec - p) i.kind.entsize
  have hlt := Nat.mod_lt (size i sec - p) he
  generalize (size i sec - p) / i.kind.entsize = n at hmod
  have hin : p + n * i.kind.entsize ≤ (contents i sec).length := by
    rw [length_contents]
    omega
  have hlast : (contents i sec).length ≤ p + n * i.kind.entsize + i.kind.entsize := by
    rw [length_contents]
    omega
  apply exists_firstZero hin
  rw [isZero_entity_last hk hin hlast]
  apply isZero_drop hend
  rw [length_contents] at hlast ⊢
  omega

/-- Where the tail is zero, there is a zero entity from every place that is a multiple of the
entity size. -/
theorem exists_firstZero_of_tail (hk : i.kind.strings = true)
    (htail : ZeroTail i.kind (contents i sec)) (hdvd : i.kind.entsize ∣ p)
    (hp : p < size i sec) : ∃ n, FirstZero i.kind (contents i sec) p n := by
  have he := entsize_pos i
  have hle := le_tail he hdvd hp.le
  obtain ⟨m, rfl⟩ := hdvd
  have hsplit : i.kind.entsize * m + (size i sec / i.kind.entsize - m) * i.kind.entsize
      = size i sec / i.kind.entsize * i.kind.entsize := by
    rw [Nat.sub_mul, Nat.mul_comm m]
    exact Nat.add_sub_cancel' hle
  apply exists_firstZero (n := size i sec / i.kind.entsize - m)
  · rw [hsplit]
    exact Nat.div_mul_le_self _ _
  · rw [hsplit]
    exact (isZero_tail hk he).mpr htail

theorem inside_of_covered (htab : Readable i tab) (h : Covered i.kind (contents i sec)) :
    Inside i sec tab := by
  intro fuel
  have hmeets : Meets (fun x => x = .running) (Readable i) (recordSection i fuel sec tab) := by
    rw [Covered] at h
    rw [recordSection]
    split at h
    case isFalse hk =>
      have hk' : i.kind.strings = false := by simpa using hk
      rw [if_neg hk]
      exact recordConstants_meets hk' htab h (Nat.dvd_zero _)
    case isTrue hk =>
      rw [if_pos hk]
      rcases h with ⟨hlen, htail⟩ | hend
      · -- every place is a multiple of the entity size
        apply recordStrings_meets (P := fun p => i.kind.entsize ∣ p) hk htab
        · intro p hdvd hlt
          obtain ⟨n, hfirst⟩ := exists_firstZero_of_tail hk htail hdvd hlt
          refine ⟨n, hfirst, hdvd.add ?_⟩
          rcases hlen with hpow | hshort
          · exact (Nat.dvd_mod_iff hpow).mpr (Nat.dvd_mul_left _ _)
          · rw [Nat.mod_eq_of_lt (length_lt_of_short hshort hdvd hfirst)]
            exact Nat.dvd_mul_left _ _
        · intro p hdvd _ _
          exact hdvd.add dvd_rfl
        · exact Nat.dvd_zero _
      · apply recordStrings_meets (P := fun _ => True) hk htab
        · intro p _ hlt
          obtain ⟨n, hfirst⟩ := exists_firstZero_of_end hk hend hlt
          exact ⟨n, hfirst, trivial⟩
        · intros
          trivial
        · trivial
  intro hout
  rw [hout] at hmeets
  cases hmeets

/-- A recording that stays within the section needs what `Covered` says, as long as there are no
strings whose length is lost. -/
theorem covered_of_inside (htab : Readable i tab)
    (hshort : i.kind.strings = true → ¬ LongString i.kind (contents i sec))
    (h : Inside i sec tab) : Covered i.kind (contents i sec) := by
  by_contra hnot
  apply h (size i sec + 1)
  rw [Covered] at hnot
  rw [recordSection]
  split
  case isTrue hk =>
    rw [if_pos hk] at hnot
    have htail : ¬ ZeroTail i.kind (contents i sec) :=
      fun htail => hnot (.inl ⟨.inr (hshort hk), htail⟩)
    exact recordStrings_outside hk htab (hshort hk) htail (Nat.dvd_zero _) (Nat.zero_le _)
      (by omega)
  case isFalse hk =>
    rw [if_neg hk] at hnot
    have hk' : i.kind.strings = false := by simpa using hk
    exact recordConstants_outside hk' htab hnot (Nat.dvd_zero _) (Nat.zero_le _) (by omega)

/-- Whatever was recorded before, a covered section is recorded from its contents only; and, as long
as there are no strings whose length is lost, only such a section is. -/
theorem record_reads_inside (htab : Recorded i tab) :
    (Covered i.kind (contents i sec) → Inside i sec tab) ∧
      ((i.kind.strings = true → ¬ LongString i.kind (contents i sec)) →
        (Inside i sec tab ↔ Covered i.kind (contents i sec))) := by
  refine ⟨inside_of_covered htab.readable, ?_⟩
  intro hshort
  exact ⟨covered_of_inside htab.readable hshort, inside_of_covered htab.readable⟩

/-- A section of constants of four bytes. -/
def words (c : List BfdByte) (h : c ≠ []) : Input where
  kind := { entsize := 4, alignmentPower := 2, strings := false }
  secs := [c]
  accepted := rfl
  recorded := List.cons_ne_nil _ _
  nonempty := by
    intro x hx
    rw [List.mem_singleton.mp hx]
    exact h

/-- A section of strings whose last one has no terminator. -/
def unterminated : Input where
  kind := { entsize := 2, alignmentPower := 0, strings := true }
  secs := [[0x61, 0, 0, 0, 0x62, 0]]
  accepted := rfl
  recorded := List.cons_ne_nil _ _
  nonempty := by
    intro x hx
    rw [List.mem_singleton.mp hx]
    exact List.cons_ne_nil _ _

theorem unterminated_reads_inside :
    Inside unterminated 0 [] ∧
      (Inside unterminated 0 [] ↔ Covered unterminated.kind (contents unterminated 0)) := by
  have hcovered : Covered unterminated.kind (contents unterminated 0) :=
    .inl ⟨.inl ⟨2 ^ 31, rfl⟩, rfl⟩
  refine ⟨(record_reads_inside .start).1 hcovered, (record_reads_inside .start).2 ?_⟩
  rintro _ ⟨m, n, hin, hlong, _⟩
  have hlen : (contents unterminated 0).length = 6 := rfl
  have hsize : unterminated.kind.entsize = 2 := rfl
  rw [hlen, hsize] at hin
  rw [hsize] at hlong
  omega

/-- Six bytes of constants of four bytes: the second one is read beyond the section. -/
theorem six_bytes_read_outside : ¬ Inside (words [1, 2, 3, 4, 5, 6] (List.cons_ne_nil _ _)) 0 [] :=
  fun h => h 3 rfl

end FusionBinutils.Bfd.MergeReads
