import FusionBinutils.Bfd.Properties

/-! A corrupt property note, and what it leaves behind. -/
namespace FusionBinutils.Bfd.Properties

variable {abfd : Abfd} {desc tail e : List BfdByte} {es : List (List BfdByte)} {type datasz : BitVec 32}
  {ptr rounds n : Nat} {st : State} {f : ElfProperty → ElfProperty} {props : List ElfProperty}
  {res : NoteResult}

/-! The list of properties. -/

theorem getProperty_cons (type datasz : BitVec 32) (f : ElfProperty → ElfProperty)
    (p : ElfProperty) (rest : List ElfProperty) :
    getProperty type datasz f (p :: rest) =
      if type = p.prType then
        f { p with prDatasz := if p.prDatasz < datasz then datasz else p.prDatasz } :: rest
      else if type < p.prType then f ⟨type, datasz, 0, .unknown⟩ :: p :: rest
      else p :: getProperty type datasz f rest :=
  rfl

theorem getProperty_ne_nil : getProperty type datasz f props ≠ [] := by
  cases props with
  | nil => exact List.cons_ne_nil _ _
  | cons p rest =>
    rw [getProperty_cons]
    split_ifs <;> simp

theorem mem_getProperty (hf : ∀ p, (f p).prType = p.prType) {q : ElfProperty}
    (hq : q ∈ getProperty type datasz f props) : q.prType = type ∨ ∃ p ∈ props, q.prType = p.prType := by
  induction props with
  | nil =>
    obtain rfl := List.mem_singleton.1 hq
    exact .inl (hf _)
  | cons p rest ih =>
    by_cases htype : type = p.prType
    · rw [getProperty_cons, if_pos htype] at hq
      rcases List.mem_cons.1 hq with rfl | hq
      · exact .inl ((hf _).trans htype.symm)
      · exact .inr ⟨q, .tail _ hq, rfl⟩
    · by_cases hlt : type < p.prType
      · rw [getProperty_cons, if_neg htype, if_pos hlt] at hq
        rcases List.mem_cons.1 hq with rfl | hq
        · exact .inl (hf _)
        · exact .inr ⟨q, hq, rfl⟩
      · rw [getProperty_cons, if_neg htype, if_neg hlt] at hq
        rcases List.mem_cons.1 hq with rfl | hq
        · exact .inr ⟨q, .head _, rfl⟩
        · rcases ih hq with h | ⟨p', hp', h⟩
          · exact .inl h
          · exact .inr ⟨p', .tail _ hp', h⟩

/-- A property is reused or goes to its place. -/
theorem TypeSorted.getProperty (h : TypeSorted props) (hf : ∀ p, (f p).prType = p.prType) :
    TypeSorted (getProperty type datasz f props) := by
  induction props with
  | nil => exact List.pairwise_singleton _ _
  | cons p rest ih =>
    obtain ⟨hp, hrest⟩ := List.pairwise_cons.1 h
    by_cases htype : type = p.prType
    · rw [getProperty_cons, if_pos htype]
      refine List.pairwise_cons.2 ⟨?_, hrest⟩
      intro q hq
      rw [hf]
      exact hp q hq
    · by_cases hlt : type < p.prType
      · rw [getProperty_cons, if_neg htype, if_pos hlt]
        refine List.pairwise_cons.2 ⟨?_, h⟩
        intro q hq
        rw [hf]
        rcases List.mem_cons.1 hq with rfl | hq
        · exact hlt
        · exact BitVec.lt_trans hlt (hp q hq)
      · rw [getProperty_cons, if_neg htype, if_neg hlt]
        refine List.pairwise_cons.2 ⟨?_, ih hrest⟩
        intro q hq
        rcases mem_getProperty hf hq with h | ⟨p', hp', h⟩
        · rw [h]
          bv_omega
        · rw [h]
          exact hp p' hp'

/-! One property. -/

theorem getH32_some (abfd : Abfd) (h : ptr + 4 ≤ desc.length) : ∃ v, getH32 abfd desc ptr = some v := by
  rw [getH32, readAt, if_pos h]
  exact ⟨_, rfl⟩

theorem getH64_some (abfd : Abfd) (h : ptr + 8 ≤ desc.length) : ∃ v, getH64 abfd desc ptr = some v := by
  rw [getH64, readAt, if_pos h]
  exact ⟨_, rfl⟩

/-- A property that is not corrupt adds its type to the list or leaves the list alone. -/
inductive Adds (abfd : Abfd) (type : BitVec 32) (st st' : State) : Prop where
  | recorded (datasz : BitVec 32) (f : ElfProperty → ElfProperty) (hr : Records abfd type)
      (hf : ∀ p, (f p).prType = p.prType) (h : st'.props = getProperty type datasz f st.props)
  | passed (hr : ¬ Records abfd type) (h : st'.props = st.props)

theorem Adds.record (hr : Records abfd type) (hf : ∀ p, (f p).prType = p.prType) :
    Adds abfd type st (st.record type datasz f) := .recorded datasz f hr hf rfl

theorem Adds.nil_iff {st' : State} (h : Adds abfd type st st') :
    st'.props = [] ↔ st.props = [] ∧ ¬ Records abfd type := by
  cases h with
  | recorded datasz f hr hf h =>
    rw [h]
    exact iff_of_false getProperty_ne_nil fun h => h.2 hr
  | passed hr h => rw [h, and_iff_left hr]

theorem Adds.sorted {st' : State} (h : Adds abfd type st st') (hs : TypeSorted st.props) :
    TypeSorted st'.props := by
  cases h with
  | recorded datasz f hr hf h =>
    rw [h]
    exact hs.getProperty hf
  | passed hr h => rwa [h]

theorem alignSize_cases (abfd : Abfd) : abfd.alignSize = 4 ∨ abfd.alignSize = 8 := by
  unfold Abfd.alignSize
  split
  · exact .inr rfl
  · exact .inl rfl

theorem isX86Property_bounds (h : isX86Property type = true) :
    gnuPropertyLoproc ≤ type ∧ type < gnuPropertyLouser := by
  simp only [isX86Property, Bool.or_eq_true, decide_eq_true_eq] at h
  rcases h with (rfl | rfl) | rfl <;> decide

/-- Types below the processor's own are those of the switch. -/
theorem records_iff_low (abfd : Abfd) (h : ¬ gnuPropertyLoproc ≤ type) : Records abfd type ↔
    type = gnuPropertyStackSize ∨ type = gnuPropertyNoCopyOnProtected := by
  have hx : ¬ isX86Property type = true := fun hx => h (isX86Property_bounds hx).1
  simp [Records, hx]

theorem records_iff_high (abfd : Abfd) (h : gnuPropertyLoproc ≤ type) : Records abfd type ↔
    abfd.machine = .x86 ∧ isX86Property type = true := by
  have h1 : type ≠ gnuPropertyStackSize := by
    rintro rfl
    exact absurd h (by decide)
  have h2 : type ≠ gnuPropertyNoCopyOnProtected := by
    rintro rfl
    exact absurd h (by decide)
  simp [Records, h1, h2]

/-- How a turn ends: a corrupt property clears the list. -/
inductive Ends (abfd : Abfd) (type datasz : BitVec 32) (st : State) : Option Turn → Prop where
  | fail {st'} (hbad : ¬ Accepts abfd type datasz) (h : st'.props = []) :
      Ends abfd type datasz st (some (.fail st'))
  | next {st'} (hgood : Accepts abfd type datasz) (h : Adds abfd type st st') :
      Ends abfd type datasz st (some (.next st'))

/-- The properties of the processor. -/
theorem ends_high (abfd : Abfd) (st : State) (hin : ptr + datasz.toNat ≤ desc.length)
    (hhigh : gnuPropertyLoproc ≤ type) :
    Ends abfd type datasz st (parseProperty abfd desc type ptr datasz st) := by
  have hacc : Accepts abfd type datasz ↔
      (abfd.machine = .x86 ∧ isX86Property type = true → datasz = 4) := by
    rw [Accepts, if_pos hhigh]
  have hrec := records_iff_high abfd hhigh
  rw [parseProperty, if_pos hhigh]
  by_cases hx : abfd.machine = .x86 ∧ isX86Property type = true
  · obtain ⟨hmachine, htype⟩ := hx
    have hnone : abfd.machine ≠ .none := by simp [hmachine]
    rw [if_neg hnone, if_pos ⟨(isX86Property_bounds htype).2, hmachine⟩, x86ParseGnuProperties,
      if_pos htype]
    by_cases hsize : datasz = 4
    · obtain ⟨v, hv⟩ := getH32_some abfd (show ptr + (4#32).toNat ≤ desc.length by subst hsize; exact hin)
      rw [if_neg (not_not.2 hsize), hv]
      exact .next (hacc.2 fun _ => hsize) (.record (hrec.2 ⟨hmachine, htype⟩) fun _ => rfl)
    · rw [if_pos hsize]
      exact .fail (fun h => hsize (hacc.1 h ⟨hmachine, htype⟩)) rfl
  · have hpassed : ∀ st' : State, st'.props = st.props →
        Ends abfd type datasz st (some (.next st')) := by
      intro st' h
      exact .next (hacc.2 fun h => absurd h hx) (.passed (fun h => hx (hrec.1 h)) h)
    by_cases hnone : abfd.machine = .none
    · rw [if_pos hnone]
      exact hpassed st rfl
    · rw [if_neg hnone]
      by_cases hlouser : type < gnuPropertyLouser ∧ abfd.machine = .x86
      · have htype : ¬ isX86Property type = true := fun h => hx ⟨hlouser.2, h⟩
        rw [if_pos hlouser, x86ParseGnuProperties, if_neg htype]
        exact hpassed _ rfl
      · rw [if_neg hlouser]
        exact hpassed _ rfl

/-- The properties of the switch. -/
theorem ends_low (abfd : Abfd) (st : State) (hin : ptr + datasz.toNat ≤ desc.length)
    (hlow : ¬ gnuPropertyLoproc ≤ type) :
    Ends abfd type datasz st (parseProperty abfd desc type ptr datasz st) := by
  have hacc : Accepts abfd type datasz ↔
      (type = gnuPropertyStackSize → datasz = .ofNat 32 abfd.alignSize) ∧
        (type = gnuPropertyNoCopyOnProtected → datasz = 0) := by
    rw [Accepts, if_neg hlow]
  have hrec := records_iff_low abfd hlow
  rw [parseProperty, if_neg hlow]
  by_cases hstack : type = gnuPropertyStackSize
  · have hcopy : type ≠ gnuPropertyNoCopyOnProtected := by
      rw [hstack]
      decide
    rw [if_pos hstack]
    by_cases hsize : datasz = .ofNat 32 abfd.alignSize
    · obtain ⟨v, hv⟩ : ∃ v, (if datasz = 8 then getH64 abfd desc ptr
          else (getH32 abfd desc ptr).map fun v => v.setWidth 64) = some v := by
        rcases alignSize_cases abfd with h | h
        · rw [h] at hsize
          subst hsize
          obtain ⟨v, hv⟩ := getH32_some abfd hin
          exact ⟨_, by rw [if_neg (by decide), hv]; rfl⟩
        · rw [h] at hsize
          subst hsize
          obtain ⟨v, hv⟩ := getH64_some abfd hin
          exact ⟨v, by rw [if_pos (by decide), hv]⟩
      rw [if_neg (not_not.2 hsize), hv]
      exact .next (hacc.2 ⟨fun _ => hsize, fun h => absurd h hcopy⟩)
        (.record (hrec.2 (.inl hstack)) fun _ => rfl)
    · rw [if_pos hsize]
      exact .fail (fun h => hsize ((hacc.1 h).1 hstack)) rfl
  · rw [if_neg hstack]
    by_cases hcopy : type = gnuPropertyNoCopyOnProtected
    · rw [if_pos hcopy]
      by_cases hzero : datasz = 0
      · rw [if_neg (not_not.2 hzero)]
        exact .next (hacc.2 ⟨fun h => absurd h hstack, fun _ => hzero⟩)
          (.record (hrec.2 (.inr hcopy)) fun _ => rfl)
      · rw [if_pos hzero]
        exact .fail (fun h => hzero ((hacc.1 h).2 hcopy)) rfl
    · rw [if_neg hcopy]
      exact .next (hacc.2 ⟨fun h => absurd h hstack, fun h => absurd h hcopy⟩)
        (.passed (fun h => (hrec.1 h).elim hstack hcopy) rfl)

/-- What a property comes to. It is read inside the descriptor. -/
theorem parseProperty_ends (abfd : Abfd) (type : BitVec 32) (st : State)
    (hin : ptr + datasz.toNat ≤ desc.length) :
    Ends abfd type datasz st (parseProperty abfd desc type ptr datasz st) := by
  by_cases h : gnuPropertyLoproc ≤ type
  · exact ends_high abfd st hin h
  · exact ends_low abfd st hin h

/-! The loop. -/

/-- The type and the data size that stand at the front of some bytes. -/
def typeOf (abfd : Abfd) (e : List BfdByte) : BitVec 32 :=
  .ofNat 32 (Endian.get abfd.big (e.take 4))

def dataszOf (abfd : Abfd) (e : List BfdByte) : BitVec 32 :=
  .ofNat 32 (Endian.get abfd.big ((e.drop 4).take 4))

/-- The properties at the front of a descriptor are in good order: each has its padded size, the
data of each lie inside the descriptor, and none is corrupt. -/
def Wellformed (abfd : Abfd) (tail : List BfdByte) : List (List BfdByte) → Prop
  | [] => True
  | e :: es =>
    e.length = 8 + padded abfd (dataszOf abfd e) ∧
      8 + (dataszOf abfd e).toNat ≤ (e ++ (es.flatten ++ tail)).length ∧
      Accepts abfd (typeOf abfd e) (dataszOf abfd e) ∧ Wellformed abfd tail es

def SizeOk (abfd : Abfd) (desc : List BfdByte) : Prop :=
  8 ≤ desc.length ∧ desc.length % abfd.alignSize = 0

/-- A wrong size is met while there are properties: at once, or behind properties in good order
with four bytes left over. -/
def KeepsStale (abfd : Abfd) (props : List ElfProperty) (desc : List BfdByte) : Prop :=
  (¬ SizeOk abfd desc ∧ props ≠ []) ∨
    SizeOk abfd desc ∧ ∃ es tail, desc = es.flatten ++ tail ∧ tail.length = 4 ∧
      Wellformed abfd tail es ∧ (props ≠ [] ∨ ∃ e ∈ es, Records abfd (typeOf abfd e))

theorem typeOf_append (abfd : Abfd) (rest : List BfdByte) (h : 8 ≤ e.length) :
    typeOf abfd (e ++ rest) = typeOf abfd e := by
  rw [typeOf, typeOf, List.take_append_of_le_length (by omega)]

theorem dataszOf_append (abfd : Abfd) (rest : List BfdByte) (h : 8 ≤ e.length) :
    dataszOf abfd (e ++ rest) = dataszOf abfd e := by
  rw [dataszOf, dataszOf, List.drop_append_of_le_length (by omega),
    List.take_append_of_le_length (by rw [List.length_drop]; omega)]

/-- The data padded to the alignment. -/
theorem padded_spec (abfd : Abfd) (datasz : BitVec 32) : padded abfd datasz % abfd.alignSize = 0 ∧
    ∀ n, datasz.toNat ≤ n → n % abfd.alignSize = 0 → padded abfd datasz ≤ n := by
  have hd := datasz.isLt
  rcases alignSize_cases abfd with h | h
  · have hand := BitField.toNat_and_field (x := datasz + 3#32) (m := ~~~3#32) 2 30 (by decide)
    rw [padded, h, hand, BitVec.toNat_add]
    refine ⟨by omega, ?_⟩
    intro n hle hn
    have h3 : (3#32).toNat = 3 := rfl
    omega
  · have hand := BitField.toNat_and_field (x := datasz + 7#32) (m := ~~~7#32) 3 29 (by decide)
    rw [padded, h, hand, BitVec.toNat_add]
    refine ⟨by omega, ?_⟩
    intro n hle hn
    have h7 : (7#32).toNat = 7 := rfl
    omega

theorem getH32_header (abfd : Abfd) (h : ptr + 8 ≤ desc.length) :
    getH32 abfd desc ptr = some (typeOf abfd (desc.drop ptr)) ∧
      getH32 abfd desc (ptr + 4) = some (dataszOf abfd (desc.drop ptr)) := by
  rw [getH32, getH32, readAt, readAt, if_pos (by omega), if_pos (by omega), dataszOf,
    List.drop_drop]
  exact ⟨rfl, rfl⟩

/-- One round at an aligned place with room for a header. -/
inductive Round (abfd : Abfd) (desc : List BfdByte) (rounds ptr : Nat) (st : State) :
    Option NoteResult → Prop where
  | fail {st'} (hbad : ¬ (ptr + 8 + (dataszOf abfd (desc.drop ptr)).toNat ≤ desc.length ∧
        Accepts abfd (typeOf abfd (desc.drop ptr)) (dataszOf abfd (desc.drop ptr))))
      (h : st'.props = []) : Round abfd desc rounds ptr st (some (.done false st'))
  | next {st'} (next : Nat) (hnext : next = ptr + 8 + padded abfd (dataszOf abfd (desc.drop ptr)))
      (hfits : ptr + 8 + (dataszOf abfd (desc.drop ptr)).toNat ≤ desc.length)
      (hgood : Accepts abfd (typeOf abfd (desc.drop ptr)) (dataszOf abfd (desc.drop ptr)))
      (hadds : Adds abfd (typeOf abfd (desc.drop ptr)) st st')
      (hle : next ≤ desc.length) (halign : (desc.length - next) % abfd.alignSize = 0) :
      Round abfd desc rounds ptr st
        (if next = desc.length then some (.done true st')
          else if desc.length < next + 8 then
            some (.done false (st'.warn (corruptSize abfd desc.length)))
          else parseLoop abfd desc rounds next st')

theorem parseLoop_round (h8 : ptr + 8 ≤ desc.length)
    (halign : (desc.length - ptr) % abfd.alignSize = 0) (rounds : Nat) (st : State) :
    Round abfd desc rounds ptr st (parseLoop abfd desc (rounds + 1) ptr st) := by
  obtain ⟨htype, hdatasz⟩ := getH32_header abfd h8
  have hrest : (desc.length - (ptr + 8)) % abfd.alignSize = 0 := by
    rcases alignSize_cases abfd with h | h <;> (rw [h] at halign ⊢; omega)
  rw [parseLoop, htype, hdatasz]
  dsimp only
  by_cases hfits : desc.length < ptr + 8 + (dataszOf abfd (desc.drop ptr)).toNat
  · rw [if_pos hfits]
    refine .fail ?_ rfl
    rintro ⟨hle, -⟩
    omega
  · rw [if_neg hfits]
    have hin : ptr + 8 + (dataszOf abfd (desc.drop ptr)).toNat ≤ desc.length := by omega
    have hends := parseProperty_ends abfd (typeOf abfd (desc.drop ptr)) st hin
    generalize parseProperty abfd desc (typeOf abfd (desc.drop ptr)) (ptr + 8)
      (dataszOf abfd (desc.drop ptr)) st = turn at hends
    cases hends with
    | fail hbad h => exact .fail (fun hgood => hbad hgood.2) h
    | next hgood h =>
      obtain ⟨hpad, hbound⟩ := padded_spec abfd (dataszOf abfd (desc.drop ptr))
      have hle := hbound (desc.length - (ptr + 8)) (by omega) hrest
      refine .next _ rfl hin hgood h (by omega) ?_
      rcases alignSize_cases abfd with h | h <;> (rw [h] at hpad hrest ⊢; omega)

/-- The loop comes to an end: every round passes a header. -/
theorem parseLoop_ends (abfd : Abfd) : ∀ rounds ptr st, ptr + 8 ≤ desc.length →
    (desc.length - ptr) % abfd.alignSize = 0 → desc.length ≤ ptr + rounds →
      parseLoop abfd desc rounds ptr st ≠ none := by
  intro rounds
  induction rounds with
  | zero =>
    intro ptr st h8 _ hle
    omega
  | succ rounds ih =>
    intro ptr st h8 halign hle hnone
    have hround := parseLoop_round h8 halign rounds st
    rw [hnone] at hround
    generalize hres : (none : Option NoteResult) = res at hround
    cases hround with
    | fail hbad h => cases hres
    | next next hnext hfits hgood hadds hlen hmod =>
      split_ifs at hres with heq hlt
      exact ih next _ (by omega) hmod (by omega) hres.symm

/-- What can be left over: nothing, or what was there before the properties that were read. -/
def LeftOver (abfd : Abfd) (desc : List BfdByte) (ptr : Nat) (st st' : State) : Prop :=
  ∃ es tail, desc.drop ptr = es.flatten ++ tail ∧ tail.length = 4 ∧ Wellformed abfd tail es ∧
    (st'.props = [] ↔ st.props = [] ∧ ∀ e ∈ es, ¬ Records abfd (typeOf abfd e))

/-- The entry at the front of the rest, when there is room for it. -/
theorem entry_front (abfd : Abfd) {next : Nat}
    (hnext : next = ptr + 8 + padded abfd (dataszOf abfd (desc.drop ptr))) (hle : next ≤ desc.length) :
    ∃ e, desc.drop ptr = e ++ desc.drop next ∧ e.length = 8 + padded abfd (dataszOf abfd e) ∧
      typeOf abfd e = typeOf abfd (desc.drop ptr) ∧ dataszOf abfd e = dataszOf abfd (desc.drop ptr) := by
  have hsplit : desc.drop ptr = (desc.drop ptr).take (next - ptr) ++ desc.drop next := by
    have h := (List.take_append_drop (next - ptr) (desc.drop ptr)).symm
    rwa [List.drop_drop, show ptr + (next - ptr) = next by omega] at h
  have hlen : ((desc.drop ptr).take (next - ptr)).length = next - ptr := by
    rw [List.length_take, List.length_drop]
    omega
  have htype := typeOf_append abfd (desc.drop next) (e := (desc.drop ptr).take (next - ptr)) (by omega)
  have hdatasz := dataszOf_append abfd (desc.drop next) (e := (desc.drop ptr).take (next - ptr)) (by omega)
  rw [← hsplit] at htype hdatasz
  refine ⟨_, hsplit, ?_, htype.symm, hdatasz.symm⟩
  rw [hlen, ← hdatasz]
  omega

/-- The end of a run that was started at a good place. -/
theorem parseLoop_outcome (abfd : Abfd) : ∀ rounds ptr st res, ptr + 8 ≤ desc.length →
    (desc.length - ptr) % abfd.alignSize = 0 → parseLoop abfd desc rounds ptr st = some res →
      ∃ ok st', res = .done ok st' ∧ (TypeSorted st.props → TypeSorted st'.props) ∧
        (ok = false → st'.props = [] ∨ LeftOver abfd desc ptr st st') := by
  intro rounds
  induction rounds with
  | zero =>
    intro ptr st res _ _ h
    cases h
  | succ rounds ih =>
    intro ptr st res h8 halign h
    have hround := parseLoop_round h8 halign rounds st
    generalize hrun : parseLoop abfd desc (rounds + 1) ptr st = run at hround
    cases hround with
    | @fail st' hbad hnil =>
      cases hrun.symm.trans h
      refine ⟨false, st', rfl, ?_, fun _ => .inl hnil⟩
      intro _
      rw [hnil]
      exact List.Pairwise.nil
    | @next st' next hnext hfits hgood hadds hle hmod =>
      rw [h] at hrun
      obtain ⟨e, hfront, hlen, htype, hdatasz⟩ := entry_front abfd hnext hle
      -- the entry goes in front of what the rest of the run leaves
      have hcons : ∀ st₁ st₂ : State, Adds abfd (typeOf abfd e) st st₁ →
          LeftOver abfd desc next st₁ st₂ → LeftOver abfd desc ptr st st₂ := by
        rintro st₁ st₂ hadd ⟨es, tail, hrest, htail, hwell, hnil⟩
        refine ⟨e :: es, tail, ?_, htail, ⟨hlen, ?_, ?_, hwell⟩, ?_⟩
        · rw [hfront, hrest, List.flatten_cons, List.append_assoc]
        · rw [← hrest, ← hfront, hdatasz, List.length_drop]
          omega
        · rw [htype, hdatasz]
          exact hgood
        · rw [hnil, hadd.nil_iff, List.forall_mem_cons, and_assoc]
      rw [← htype] at hadds
      split_ifs at hrun with heq hlt
      · cases hrun
        exact ⟨true, st', rfl, hadds.sorted, fun h => by cases h⟩
      · cases hrun
        refine ⟨false, _, rfl, hadds.sorted, fun _ => .inr ?_⟩
        refine hcons st' _ hadds ⟨[], desc.drop next, rfl, ?_, trivial, ?_⟩
        · rw [List.length_drop]
          rcases alignSize_cases abfd with h | h <;> (rw [h] at hmod; omega)
        · exact ⟨fun h => ⟨h, by simp⟩, fun h => h.1⟩
      · obtain ⟨ok, st'', hres, hsorted, hleft⟩ := ih next st' res (by omega) hmod hrun.symm
        refine ⟨ok, st'', hres, fun hs => hsorted (hadds.sorted hs), ?_⟩
        intro hok
        rcases hleft hok with hnil | hleft
        · exact .inl hnil
        · exact .inr (hcons st' st'' hadds hleft)

/-- Properties in good order with four bytes behind them are kept, and the note is refused. -/
theorem parseLoop_wellformed (abfd : Abfd) : ∀ es tail ptr rounds st res, es ≠ [] →
    ptr ≤ desc.length → desc.drop ptr = es.flatten ++ tail → tail.length = 4 →
    Wellformed abfd tail es → (desc.length - ptr) % abfd.alignSize = 0 →
    parseLoop abfd desc rounds ptr st = some res →
      ∃ st', res = .done false st' ∧
        (st'.props = [] → st.props = [] ∧ ∀ e ∈ es, ¬ Records abfd (typeOf abfd e)) := by
  intro es
  induction es with
  | nil =>
    intro _ _ _ _ _ hne
    exact absurd rfl hne
  | cons e es ih =>
    intro tail ptr rounds st res _ hptr hrest htail hwell halign h
    obtain ⟨hlen, hfits, hgood, hwell⟩ := hwell
    rw [List.flatten_cons, List.append_assoc] at hrest
    have hlength : desc.length - ptr = (e ++ (es.flatten ++ tail)).length := by
      rw [← hrest, List.length_drop]
    have htype := typeOf_append abfd (es.flatten ++ tail) (e := e) (by omega)
    have hdatasz := dataszOf_append abfd (es.flatten ++ tail) (e := e) (by omega)
    rw [← hrest] at htype hdatasz
    have hsum : desc.length = ptr + e.length + (es.flatten.length + 4) := by
      rw [List.length_append, List.length_append] at hlength
      omega
    cases rounds with
    | zero => cases h
    | succ rounds =>
      have hround := parseLoop_round (show ptr + 8 ≤ desc.length by omega) halign rounds st
      generalize hrun : parseLoop abfd desc (rounds + 1) ptr st = run at hround
      cases hround with
      | @fail st' hbad hnil =>
        refine absurd ⟨?_, ?_⟩ hbad
        · rw [hdatasz]
          omega
        · rw [htype, hdatasz]
          exact hgood
      | @next st' next hnext _ _ hadds hle hmod =>
        rw [h] at hrun
        rw [hdatasz] at hnext
        rw [htype] at hadds
        have hnext' : next = ptr + e.length := by omega
        rw [if_neg (by omega)] at hrun
        by_cases hes : es = []
        · subst hes
          simp only [List.flatten_nil, List.length_nil] at hsum
          rw [if_pos (by omega)] at hrun
          cases hrun
          refine ⟨_, rfl, ?_⟩
          intro hnil
          obtain ⟨hst, hrec⟩ := hadds.nil_iff.1 hnil
          exact ⟨hst, by simpa using hrec⟩
        · have hdrop : desc.drop next = es.flatten ++ tail := by
            rw [hnext', ← List.drop_drop, hrest, List.drop_left]
          have h8 : 8 ≤ es.flatten.length := by
            obtain ⟨e', es', rfl⟩ := List.exists_cons_of_ne_nil hes
            have := hwell.1
            rw [List.flatten_cons, List.length_append]
            omega
          rw [if_neg (by omega)] at hrun
          obtain ⟨st'', hres, hnil⟩ := ih tail next rounds st' res hes hle hdrop htail hwell hmod
            hrun.symm
          refine ⟨st'', hres, ?_⟩
          intro h
          obtain ⟨hst', hall⟩ := hnil h
          obtain ⟨hst, hrec⟩ := hadds.nil_iff.1 hst'
          exact ⟨hst, List.forall_mem_cons.2 ⟨hrec, hall⟩⟩

theorem parseGnuProperties_sizeOk (rounds : Nat) (props : List ElfProperty)
    (h : SizeOk abfd desc) :
    parseGnuProperties rounds abfd props desc = parseLoop abfd desc rounds 0 ⟨props, []⟩ := by
  apply if_neg
  rintro (hlt | hmod)
  · exact absurd h.1 (by omega)
  · exact hmod h.2

theorem parseGnuProperties_badSize (rounds : Nat) (props : List ElfProperty)
    (h : ¬ SizeOk abfd desc) : parseGnuProperties rounds abfd props desc =
      some (.done false (State.warn ⟨props, []⟩ (corruptSize abfd desc.length))) := by
  apply if_pos
  by_contra hno
  push Not at hno
  exact h hno

theorem Reachable.sorted (h : Reachable abfd props) : TypeSorted props := by
  induction h with
  | none => exact List.Pairwise.nil
  | @note props desc rounds ok st _ hparse ih =>
    by_cases hsize : SizeOk abfd desc
    · rw [parseGnuProperties_sizeOk rounds props hsize] at hparse
      obtain ⟨ok', st', hres, hsorted, -⟩ := parseLoop_outcome abfd rounds 0 _ _
        (by simpa using hsize.1) (by simpa using hsize.2) hparse
      cases hres
      exact hsorted ih
    · rw [parseGnuProperties_badSize rounds props hsize] at hparse
      cases hparse
      exact ih

/-- A refused note leaves no properties exactly when no wrong size is met with properties
there. -/
theorem leavesNoStale_iff (h : Reachable abfd props) (desc : List BfdByte) :
    LeavesNoStale abfd props desc ↔ ¬ KeepsStale abfd props desc := by
  by_cases hsize : SizeOk abfd desc
  · have h8 : 0 + 8 ≤ desc.length := by simpa using hsize.1
    have halign : (desc.length - 0) % abfd.alignSize = 0 := hsize.2
    constructor
    · rintro ⟨rounds, ok, st, hparse, hfalse, -⟩ (⟨hbad, -⟩ | ⟨-, es, tail, hdesc, htail, hwell, hsome⟩)
      · exact hbad hsize
      · have hes : es ≠ [] := by
          rintro rfl
          rw [hdesc, List.flatten_nil, List.nil_append] at h8
          omega
        rw [parseGnuProperties_sizeOk rounds props hsize] at hparse
        obtain ⟨st', hres, hnil⟩ := parseLoop_wellformed abfd es tail 0 rounds _ _ hes
          (Nat.zero_le _) hdesc htail hwell halign hparse
        cases hres
        obtain ⟨hprops, hall⟩ := hnil (hfalse rfl)
        rcases hsome with hne | ⟨e, he, hrec⟩
        · exact hne hprops
        · exact hall e he hrec
    · intro hkeeps
      obtain ⟨res, hres⟩ := Option.ne_none_iff_exists'.1
        (parseLoop_ends abfd desc.length 0 ⟨props, []⟩ h8 halign (by omega))
      obtain ⟨ok, st, rfl, hsorted, hleft⟩ := parseLoop_outcome abfd _ 0 _ _ h8 halign hres
      refine ⟨desc.length, ok, st, (parseGnuProperties_sizeOk _ props hsize).trans hres, ?_,
        fun _ => hsorted h.sorted⟩
      intro hok
      rcases hleft hok with hnil | ⟨es, tail, hdesc, htail, hwell, hnil⟩
      · exact hnil
      · rw [hnil]
        by_contra hstale
        refine hkeeps (.inr ⟨hsize, es, tail, hdesc, htail, hwell, ?_⟩)
        by_cases hprops : props = []
        · right
          by_contra hnone
          push Not at hnone
          exact hstale ⟨hprops, hnone⟩
        · exact .inl hprops
  · constructor
    · rintro ⟨rounds, ok, st, hparse, hfalse, -⟩ (⟨-, hne⟩ | ⟨hok, -⟩)
      · rw [parseGnuProperties_badSize rounds props hsize] at hparse
        cases hparse
        exact hne (hfalse rfl)
      · exact hsize hok
    · intro hkeeps
      refine ⟨0, false, _, parseGnuProperties_badSize 0 props hsize, ?_, fun h => by cases h⟩
      intro _
      by_contra hne
      exact hkeeps (.inl ⟨hsize, hne⟩)

/-! Notes of a 32-bit file without properties of the processor. -/

def sampleFile : Abfd := ⟨"a.o", true, false, .plain⟩

/-- The property that there is nothing to copy, and four bytes more. -/
def overlongNote : List BfdByte := [0, 0, 0, 2, 0, 0, 0, 0, 0, 0, 0, 0]

theorem leavesNoStale_single : LeavesNoStale sampleFile [] [0, 0, 0, 2, 0, 0, 0, 0] :=
  (leavesNoStale_iff .none _).2 (by
    rintro (⟨-, h⟩ | ⟨-, es, tail, hdesc, htail, hwell, -⟩)
    · exact h rfl
    · have hlen := congrArg List.length hdesc
      rw [List.length_append, htail] at hlen
      cases es with
      | nil => exact absurd hlen (by decide)
      | cons e es =>
        have := hwell.1
        rw [List.flatten_cons, List.length_append] at hlen
        change 8 = _ at hlen
        omega)

/-- The note is refused, and the property stays. -/
theorem overlong_leaves_property : ¬ LeavesNoStale sampleFile [] overlongNote := by
  rw [leavesNoStale_iff .none]
  have htype : typeOf sampleFile [0, 0, 0, 2, 0, 0, 0, 0] = gnuPropertyNoCopyOnProtected := by decide
  have hdatasz : dataszOf sampleFile [0, 0, 0, 2, 0, 0, 0, 0] = 0 := by decide
  refine not_not.2 (.inr ⟨⟨by decide, rfl⟩, [[0, 0, 0, 2, 0, 0, 0, 0]], [0, 0, 0, 0], rfl, rfl, ?_, ?_⟩)
  · refine ⟨by decide, by decide, ?_, trivial⟩
    rw [Accepts, htype, hdatasz, if_neg (by decide)]
    exact ⟨fun h => absurd h (by decide), fun _ => rfl⟩
  · refine .inr ⟨_, .head _, ?_⟩
    rw [htype]
    exact .inr (.inl rfl)

end FusionBinutils.Bfd.Properties
