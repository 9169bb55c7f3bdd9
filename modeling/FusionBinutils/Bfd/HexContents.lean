import FusionBinutils.Bfd.IhexPasses
import FusionBinutils.Bfd.SrecPasses

/-! The contents of the sections of hex files, which are read once and then kept in the section. -/
namespace FusionBinutils.Bfd

open HexFile

/-- The loop of `ihex_read_section`: what it returns, and what it has stored until then. -/
def Ihex.readInto : Nat → List Char → Nat → Bool × List BfdByte
  | 0, _, _ => (false, [])
  | _ + 1, [], size => (!decide (0 < size), [])
  | n + 1, c :: p, size =>
    if c = '\r' ∨ c = '\n' then Ihex.readInto n p size
    else if p.length < 8 then (false, [])
    else
      let hdr := rawBytes (p.take 8)
      let len := (hdr.getD 0 0#8).toNat
      if (hdr.getD 3 0#8).toNat ≠ 0 then (false, [])
      else if (p.drop 8).length < len * 2 then (false, [])
      else
        let data := rawBytes ((p.drop 8).take (len * 2))
        if size ≤ len then (true, data)
        else if (p.drop (8 + len * 2)).length < 2 then (false, data)
        else
          let r := Ihex.readInto n (p.drop (8 + len * 2 + 2)) (size - len)
          (r.1, data ++ r.2)

/-- The loop of `srec_read_section` with its buffer, likewise; `broken` says that the text ends with
an error. `none` is `Outcome.wild`. -/
def Srec.readInto (broken : Bool) : Nat → List Char → List Char → Nat →
    Option (Bool × List BfdByte)
  | 0, _, _, _ => some (false, [])
  | _ + 1, _, [], _ => some (!broken, [])
  | n + 1, buf, c :: p, next =>
    if c = '\r' ∨ c = '\n' then Srec.readInto broken n buf p next
    else
      match p with
      | kind :: hi :: lo :: p =>
        let bytes := countOf hi lo
        if p.length < bytes * 2 then some (false, [])
        else
          let buf := refill buf (p.take (bytes * 2))
          if !isData kind then some (true, [])
          else if buf.length < addressBytes kind * 2 then none
          else if addressIn kind buf ≠ next then some (true, [])
          else if bytes < addressBytes kind + 1 then none
          else
            let data := dataOf kind bytes buf
            (Srec.readInto broken n buf (p.drop (bytes * 2)) (next + data.length)).map fun r =>
              (r.1, data ++ r.2)
      | _ => some (false, [])

namespace HexContents

inductive Format
  | ihex
  | srec

/-- A call for `count` bytes of a section at `offset`: the text of the file as far as it can be read
and the memory lasts, whether an error ends it, and what is in the memory that `bfd_alloc` gives. -/
structure Call where
  text : List Char
  broken : Bool
  room : Option (Nat → BfdByte)
  offset : Nat
  count : Nat

/-- `ihex_read_section` and `srec_read_section`. -/
def Format.read (fmt : Format) (sec : Sec) (c : Call) : Option (Bool × List BfdByte) :=
  match fmt with
  | .ihex => some (Ihex.readInto (c.text.length + 1) (c.text.drop sec.filepos) sec.size)
  | .srec =>
    Srec.readInto c.broken (c.text.length + 1) [] (c.text.drop sec.filepos) sec.vma

/-- The bytes that a successful call copies; `none` is a copy from outside of the buffer. -/
def copied (buf : List BfdByte) (c : Call) : Option (List BfdByte) :=
  if buf.length < c.offset + c.count then none else some ((buf.drop c.offset).take c.count)

/-- The part that the functions share: `used_by_bfd` is filled if it is null, and copied from. The
answer `none` is FALSE; the whole is `none` when something outside of a buffer is touched. -/
def fillAndCopy (fmt : Format) (sec : Sec) (usedByBfd : Option (List BfdByte)) (c : Call) :
    Option (Option (List BfdByte) × Option (List BfdByte)) :=
  match usedByBfd with
  | some buf => (copied buf c).map fun bytes => (some bytes, some buf)
  | none =>
    match c.room with
    | none => some (none, none)
    | some room => do
      let r ← fmt.read sec c
      if sec.size < r.2.length then none
      else
        let buf := r.2 ++ ((List.range sec.size).map room).drop r.2.length
        if r.1 then (copied buf c).map fun bytes => (some bytes, some buf)
        else some (none, some buf)

/-- `ihex_get_section_contents` and `srec_get_section_contents`. -/
def getSectionContents (fmt : Format) (sec : Sec) (usedByBfd : Option (List BfdByte)) (c : Call) :
    Option (Option (List BfdByte) × Option (List BfdByte)) :=
  match fmt with
  | .ihex => fillAndCopy .ihex sec usedByBfd c
  | .srec =>
    if c.count = 0 then some (some [], usedByBfd)
    else if (c.offset + c.count) % 2 ^ 64 < c.count ∨ sec.size < (c.offset + c.count) % 2 ^ 64 then
      some (none, usedByBfd)
    else fillAndCopy .srec sec usedByBfd c

/-- Calls for one section, from what it has in `used_by_bfd`; what that is afterwards. -/
def run (fmt : Format) (sec : Sec) :
    Option (List BfdByte) → List Call → Option (Option (List BfdByte))
  | usedByBfd, [] => some usedByBfd
  | usedByBfd, c :: calls => do
    let r ← getSectionContents fmt sec usedByBfd c
    run fmt sec r.2 calls

/-- A read of the section that succeeds and stores all of its bytes. -/
def ReadsAll (fmt : Format) (sec : Sec) (c : Call) (d : List BfdByte) : Prop :=
  fmt.read sec c = some (true, d) ∧ d.length = sec.size

/-- The bytes of a call are those of a complete read, its own or that of one of the calls before. -/
def Faithful (fmt : Format) (sec : Sec) (calls : List Call) (c : Call) (bytes : List BfdByte) :
    Prop :=
  bytes = [] ∧ c.count = 0 ∨
    ∃ c' ∈ calls ++ [c], ∃ d, ReadsAll fmt sec c' d ∧ bytes = (d.drop c.offset).take c.count

/-- The call finds nothing in `used_by_bfd` and reads the section. -/
def ComesToRead (fmt : Format) (sec : Sec) (usedByBfd : Option (List BfdByte)) (c : Call) : Prop :=
  usedByBfd = none ∧ c.room ≠ none ∧
    (fmt = .srec → c.count ≠ 0 ∧ c.count ≤ (c.offset + c.count) % 2 ^ 64 ∧
      (c.offset + c.count) % 2 ^ 64 ≤ sec.size)

/-- Whenever one of the calls reads the section, it stores the whole of it. -/
def ReadsWhole (fmt : Format) (sec : Sec) : Option (List BfdByte) → List Call → Prop
  | _, [] => True
  | usedByBfd, c :: calls =>
    (ComesToRead fmt sec usedByBfd c → ∃ d, ReadsAll fmt sec c d) ∧
      ∀ r, getSectionContents fmt sec usedByBfd c = some r → ReadsWhole fmt sec r.2 calls

/-! The readers are those of the formats. -/

theorem ihex_readInto_eq {n size : Nat} {p : List Char} {d : List BfdByte} :
    Ihex.readInto n p size = (true, d) ↔ Ihex.readLoop n p size = some d := by
  induction n generalizing p size d with
  | zero => simp [Ihex.readInto, Ihex.readLoop]
  | succ n ih =>
    cases p with
    | nil =>
      rw [Ihex.readInto, Ihex.readLoop]
      split
      · next h => simp [h]
      · next h => simp [h]
    | cons c p =>
      rw [Ihex.readInto, Ihex.readLoop]
      split
      · exact ih
      · split
        · simp
        · dsimp only
          split
          · simp
          · split
            · simp
            · split
              · simp
              · split
                · simp
                · rw [Option.map_eq_some_iff]
                  constructor
                  · intro h
                    obtain ⟨hok, hd⟩ := Prod.mk.inj h
                    exact ⟨_, ih.mp (Prod.ext hok rfl), hd⟩
                  · rintro ⟨d', hd', rfl⟩
                    rw [ih.mpr hd']

theorem srec_readInto_eol {broken : Bool} {n next : Nat} {buf p : List Char} {c : Char}
    (hc : c = '\r' ∨ c = '\n') :
    Srec.readInto broken (n + 1) buf (c :: p) next = Srec.readInto broken n buf p next := by
  rw [Srec.readInto.eq_def]
  exact if_pos hc

theorem srec_readInto_short {broken : Bool} {n next : Nat} {buf p : List Char} {c : Char}
    (hc : ¬ (c = '\r' ∨ c = '\n')) (h : p.length < 3) :
    Srec.readInto broken (n + 1) buf (c :: p) next = some (false, []) := by
  rw [Srec.readInto.eq_def]
  simp only [if_neg hc]
  rcases p with - | ⟨kind, - | ⟨hi, - | ⟨lo, p⟩⟩⟩
  · rfl
  · rfl
  · rfl
  · simp only [List.length_cons] at h
    omega

theorem srec_readInto_eq {n next : Nat} {buf p : List Char} {d : List BfdByte} :
    Srec.readInto false n buf p next = some (true, d) ↔ Srec.readStored n buf p next = .done d := by
  induction n generalizing buf p next d with
  | zero => simp [Srec.readInto, Srec.readStored]
  | succ n ih =>
    cases p with
    | nil => simp [Srec.readInto, Srec.readStored]
    | cons c p =>
      by_cases hc : c = '\r' ∨ c = '\n'
      · rw [srec_readInto_eol hc, Srec.readStored_eol hc]
        exact ih
      · by_cases hlen : 3 ≤ p.length
        · obtain ⟨kind, hi, lo, p, rfl⟩ := Srec.cons_of_three_le hlen
          rw [Srec.readInto, Srec.readStored, if_neg hc, if_neg hc]
          dsimp only
          split
          · simp
          · split
            · simp
            · split
              · simp
              · split
                · simp
                · split
                  · simp
                  · rw [Option.map_eq_some_iff]
                    constructor
                    · rintro ⟨⟨ok, d'⟩, hr, heq⟩
                      obtain ⟨hok, rfl⟩ := Prod.mk.inj heq
                      have hok : ok = true := hok
                      subst hok
                      rw [ih.mp hr]
                      rfl
                    · intro h
                      obtain ⟨d', hd', rfl⟩ := Srec.Outcome.behind_done h
                      exact ⟨(true, d'), ih.mpr hd', rfl⟩
        · rw [Srec.readStored_short hc (by omega), srec_readInto_short hc (by omega)]
          simp

theorem read_ihex {sec : Sec} {c : Call} {d : List BfdByte} :
    Format.read .ihex sec c = some (true, d) ↔ Ihex.readSection c.text sec = some d := by
  rw [Format.read, Option.some.injEq, ihex_readInto_eq, Ihex.readSection]

theorem read_srec {sec : Sec} {c : Call} {d : List BfdByte} (hc : c.broken = false) :
    Format.read .srec sec c = some (true, d) ↔ Srec.readSectionStored c.text sec = .done d := by
  rw [Format.read, hc, srec_readInto_eq, Srec.readSectionStored]

/-- `ihex_read_section` does not succeed before it has the bytes of the section. -/
theorem ihex_readInto_length {n size : Nat} {p : List Char} {d : List BfdByte}
    (h : Ihex.readInto n p size = (true, d)) : size ≤ d.length := by
  induction n generalizing p size d with
  | zero => cases h
  | succ n ih =>
    cases p with
    | nil =>
      rw [Ihex.readInto] at h
      obtain ⟨hsize, rfl⟩ := Prod.mk.inj h
      simpa using hsize
    | cons c p =>
      rw [Ihex.readInto] at h
      split at h
      · exact ih h
      · split at h
        · cases h
        · dsimp only at h
          split at h
          · cases h
          · split at h
            · cases h
            · next hlen =>
              -- the data of a record are as long as it says
              have hdata : (rawBytes ((p.drop 8).take
                  (((rawBytes (p.take 8)).getD 0 0#8).toNat * 2))).length
                  = ((rawBytes (p.take 8)).getD 0 0#8).toNat := by
                rw [length_rawBytes, List.length_take]
                omega
              split at h
              · next hle =>
                obtain ⟨-, rfl⟩ := Prod.mk.inj h
                rwa [hdata]
              · split at h
                · cases h
                · obtain ⟨hok, rfl⟩ := Prod.mk.inj h
                  have hrest := ih (Prod.ext hok rfl)
                  rw [List.length_append, hdata]
                  exact Nat.sub_le_iff_le_add'.mp hrest

/-! What is kept in the section. -/

variable {fmt : Format} {sec : Sec} {usedByBfd after : Option (List BfdByte)} {c : Call}
  {calls earlier : List Call} {answer : Option (List BfdByte)} {bytes : List BfdByte}

/-- What is in `used_by_bfd` is what one of the calls has read. -/
def Filled (fmt : Format) (sec : Sec) (calls : List Call) (usedByBfd : Option (List BfdByte)) :
    Prop :=
  ∀ buf, usedByBfd = some buf → ∃ c ∈ calls, ReadsAll fmt sec c buf

theorem Filled.mono (h : Filled fmt sec calls usedByBfd) (c : Call) :
    Filled fmt sec (calls ++ [c]) usedByBfd := by
  intro buf hbuf
  obtain ⟨c', hc', hreads⟩ := h buf hbuf
  exact ⟨c', List.mem_append_left _ hc', hreads⟩

/-- A call that fills `used_by_bfd` by a complete read, or finds it filled by one. -/
theorem fillAndCopy_faithful (h : Filled fmt sec calls usedByBfd)
    (hown : usedByBfd = none → c.room ≠ none → ∀ d, fmt.read sec c = some (true, d) →
      sec.size ≤ d.length)
    (hget : fillAndCopy fmt sec usedByBfd c = some (some bytes, after)) :
    Faithful fmt sec calls c bytes := by
  have hcopied : ∀ buf, copied buf c = some bytes → bytes = (buf.drop c.offset).take c.count := by
    intro buf hcopy
    unfold copied at hcopy
    split at hcopy
    · cases hcopy
    · exact (Option.some.inj hcopy).symm
  cases usedByBfd with
  | some buf =>
    obtain ⟨bytes', hcopy, heq⟩ := Option.map_eq_some_iff.mp hget
    cases heq
    obtain ⟨c', hc', hreads⟩ := h buf rfl
    exact .inr ⟨c', List.mem_append_left _ hc', buf, hreads, hcopied buf hcopy⟩
  | none =>
    cases hroom : c.room with
    | none => simp [fillAndCopy, hroom] at hget
    | some room =>
      simp only [fillAndCopy, hroom] at hget
      obtain ⟨⟨ok, d⟩, hread, hget⟩ := Option.bind_eq_some_iff.mp hget
      split at hget
      · cases hget
      · next hle =>
        dsimp only at hget hle
        split at hget
        · next hok =>
          have hok : ok = true := hok
          subst hok
          obtain ⟨bytes', hcopy, heq⟩ := Option.map_eq_some_iff.mp hget
          cases heq
          have hsome : c.room ≠ none := by
            rw [hroom]
            exact Option.some_ne_none _
          have hsize : sec.size ≤ d.length := hown rfl hsome d hread
          have hdrop : ((List.range sec.size).map room).drop d.length = [] := by
            apply List.drop_eq_nil_of_le
            rw [List.length_map, List.length_range]
            exact hsize
          rw [hdrop, List.append_nil] at hcopy
          exact .inr ⟨c, by simp, d, ⟨hread, by omega⟩, hcopied d hcopy⟩
        · cases hget

theorem not_reads_of_srec {c : Call} (hcount : c.count = 0) (hget :
    getSectionContents .srec sec usedByBfd c = some (answer, after)) :
    answer = some [] ∧ after = usedByBfd := by
  rw [getSectionContents, if_pos hcount] at hget
  cases hget
  exact ⟨rfl, rfl⟩

/-- What a call leaves in the section, when it reads the whole of it or does not come to read. -/
theorem getSectionContents_filled (h : Filled fmt sec calls usedByBfd)
    (hreads : ComesToRead fmt sec usedByBfd c → ∃ d, ReadsAll fmt sec c d)
    (hget : getSectionContents fmt sec usedByBfd c = some (answer, after)) :
    Filled fmt sec (calls ++ [c]) after := by
  have hshared : (fmt = .srec → c.count ≠ 0 ∧ c.count ≤ (c.offset + c.count) % 2 ^ 64 ∧
        (c.offset + c.count) % 2 ^ 64 ≤ sec.size) →
      fillAndCopy fmt sec usedByBfd c = some (answer, after) →
      Filled fmt sec (calls ++ [c]) after := by
    intro hguard hget
    cases husedByBfd : usedByBfd with
    | some buf =>
      rw [husedByBfd] at hget h
      obtain ⟨bytes', -, heq⟩ := Option.map_eq_some_iff.mp hget
      cases heq
      exact h.mono c
    | none =>
      rw [husedByBfd] at hget h hreads
      cases hroom : c.room with
      | none =>
        simp only [fillAndCopy, hroom] at hget
        cases hget
        exact h.mono c
      | some room =>
        have hsome : c.room ≠ none := by
          rw [hroom]
          exact Option.some_ne_none _
        obtain ⟨d, hread, hlen⟩ := hreads ⟨rfl, hsome, hguard⟩
        have hdrop : ((List.range sec.size).map room).drop d.length = [] := by
          apply List.drop_eq_nil_of_le
          rw [List.length_map, List.length_range]
          exact hlen.ge
        simp only [fillAndCopy, hroom, hread, Option.bind_eq_bind, Option.bind_some,
          if_neg (Nat.not_lt.mpr hlen.le), hdrop, List.append_nil, if_true] at hget
        obtain ⟨bytes', -, heq⟩ := Option.map_eq_some_iff.mp hget
        cases heq
        intro buf hbuf
        cases hbuf
        exact ⟨c, by simp, hread, hlen⟩
  cases fmt with
  | ihex => exact hshared (fun h => by cases h) hget
  | srec =>
    by_cases hcount : c.count = 0
    · obtain ⟨-, rfl⟩ := not_reads_of_srec hcount hget
      exact h.mono c
    · rw [getSectionContents, if_neg hcount] at hget
      split at hget
      · cases hget
        exact h.mono c
      · next hrange =>
        rw [not_or, Nat.not_lt, Nat.not_lt] at hrange
        exact hshared (fun _ => ⟨hcount, hrange.1, hrange.2⟩) hget

theorem run_filled (h : Filled fmt sec earlier usedByBfd)
    (hreads : ReadsWhole fmt sec usedByBfd calls) (hrun : run fmt sec usedByBfd calls = some after) :
    Filled fmt sec (earlier ++ calls) after := by
  induction calls generalizing usedByBfd earlier with
  | nil =>
    cases hrun
    rwa [List.append_nil]
  | cons c calls ih =>
    obtain ⟨⟨answer, next⟩, hget, hrun⟩ := Option.bind_eq_some_iff.mp hrun
    have hnext := ih (getSectionContents_filled h hreads.1 hget) (hreads.2 _ hget) hrun
    rwa [List.append_assoc, List.singleton_append] at hnext

/-- The bytes that a call copies are those of a complete read, when no call before it has read the
section without storing the whole of it. The reader of S-records can end early and succeed, which
the call itself must not do either. -/
theorem contents_faithful (fmt : Format) (sec : Sec) (calls : List Call) (c : Call)
    (usedByBfd after : Option (List BfdByte)) (bytes : List BfdByte)
    (hrun : run fmt sec none calls = some usedByBfd) (hwhole : ReadsWhole fmt sec none calls)
    (hown : fmt = .srec → usedByBfd = none → ∀ d, Format.read .srec sec c = some (true, d) →
      sec.size ≤ d.length)
    (hget : getSectionContents fmt sec usedByBfd c = some (some bytes, after)) :
    Faithful fmt sec calls c bytes := by
  have hfilled : Filled fmt sec calls usedByBfd := by
    have hempty : Filled fmt sec [] none := fun buf hbuf => by cases hbuf
    have h := run_filled hempty hwhole hrun
    rwa [List.nil_append] at h
  cases fmt with
  | ihex =>
    refine fillAndCopy_faithful hfilled ?_ hget
    intro _ _ d hread
    exact ihex_readInto_length (Option.some.inj hread)
  | srec =>
    by_cases hcount : c.count = 0
    · obtain ⟨hbytes, -⟩ := not_reads_of_srec hcount hget
      exact .inl ⟨Option.some.inj hbytes, hcount⟩
    · rw [getSectionContents, if_neg hcount] at hget
      split at hget
      · cases hget
      · exact fillAndCopy_faithful hfilled (fun hnone _ => hown rfl hnone) hget

/-- One section of two bytes. -/
def twoBytes : Sec := ⟨0, 2, 0⟩

/-- A call for both of them. -/
def wholeCall : Call := ⟨Ihex.twoRecords, false, some fun _ => 0, 0, 2⟩

theorem wholeCall_faithful : Faithful .ihex twoBytes [wholeCall] wholeCall [0x41, 0x42] :=
  contents_faithful .ihex twoBytes [wholeCall] wholeCall (some [0x41, 0x42]) (some [0x41, 0x42])
    [0x41, 0x42] (by decide)
    ⟨fun _ => ⟨[0x41, 0x42], by decide, rfl⟩, fun _ _ => trivial⟩ (fun h => by cases h) (by decide)

/-- The same call, with a file that cannot be read. -/
def unreadable : Call := ⟨[], true, some fun _ => 0, 0, 2⟩

/-- The first call fails, and the second one succeeds with what was in the memory. -/
theorem failed_read_kept :
    getSectionContents .ihex twoBytes none unreadable = some (none, some [0, 0]) ∧
      getSectionContents .ihex twoBytes (some [0, 0]) wholeCall
        = some (some [0, 0], some [0, 0]) ∧
      ¬ Faithful .ihex twoBytes [unreadable] wholeCall [0, 0] := by
  refine ⟨by decide, by decide, ?_⟩
  rintro (⟨hbytes, -⟩ | ⟨c, hc, d, ⟨hread, -⟩, hbytes⟩)
  · cases hbytes
  · have hfails : Format.read .ihex twoBytes unreadable = some (false, []) := by decide
    have hworks : Format.read .ihex twoBytes wholeCall = some (true, [0x41, 0x42]) := by decide
    rcases List.mem_cons.mp hc with rfl | hc
    · rw [hfails] at hread
      cases hread
    · rw [List.mem_singleton.mp hc, hworks] at hread
      cases hread
      revert hbytes
      decide

end HexContents

end FusionBinutils.Bfd
