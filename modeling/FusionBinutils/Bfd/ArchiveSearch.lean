import FusionBinutils.Bfd.Archive
import FusionBinutils.Bfd.LinkGrow

/-! The search of an archive ends, adds a member at most once, and leaves no undefined symbol that
a member of the map defines. -/
namespace FusionBinutils.Bfd.Linker

variable {info : Info} {fuel : Nat} {hash hash' : Hash} {l l' : List Nat} {h i : Nat} {u : HashU}
  {name : String} {offset : Nat} {ar : Archive} {st st' : Search} {m : Member}

/-- The member has a definition of the symbol that is global or weak, and not common. -/
def Member.Defines (m : Member) (name : String) : Prop :=
  ∃ s ∈ m.symbols, s.name = name ∧ (s.row = .defn ∨ s.row = .defw) ∧ s.sec.isCom = false

/-- The symbol has type `bfd_link_hash_undefined`. -/
def Undefined (hash : Hash) (name : String) : Prop :=
  ∃ i abfd, hash.real name = some i ∧ hash.u i = some (.undefined abfd)

/-- The symbol is one that a member is searched for. -/
def Wanted (hash : Hash) (name : String) : Prop :=
  ∃ i u, hash.real name = some i ∧ hash.u i = some u ∧ (u.type = .undefined ∨ u.type = .common)

/-- None of the symbols of the member is indirect. -/
def Member.Direct (m : Member) : Prop := ∀ s ∈ m.symbols, s.row ≠ .indr

theorem Undefined.wanted (hu : Undefined hash name) : Wanted hash name := by
  obtain ⟨i, abfd, hi, hu⟩ := hu
  exact ⟨i, _, hi, hu, .inl rfl⟩

theorem Settled.not_undefined (hs : Settled hash name) : ¬ Undefined hash name := by
  obtain ⟨i, v, hi, hv, -, hr⟩ := hs
  rintro ⟨j, abfd, hj, hu⟩
  rw [hi, Option.some.injEq] at hj
  subst hj
  rw [hv, Option.some.injEq] at hu
  subst hu
  simp [HashU.type, HashType.rank] at hr

theorem Ready.real_direct (hr : Ready hash l) (hi : hash.real name = some i) :
    ∃ v, hash.u i = some v ∧ Direct v := by
  obtain ⟨k, hk, rfl⟩ := Option.map_eq_some_iff.mp hi
  obtain ⟨v, hv⟩ := hr.noInd.known name k hk
  exact hr.noInd.base_direct hv

theorem Ready.lookupFollow (hr : Ready hash l) (name : String) :
    hash.lookupFollow (fuel + 2) name = some (hash.real name) := by
  unfold Hash.lookupFollow Hash.real
  cases hl : hash.table.lookup name with
  | none => rfl
  | some k =>
    obtain ⟨v, hv⟩ := hr.noInd.known name k hl
    simp [hr.noInd.follow hv]

theorem Ready.call (hr : Ready hash l) (c : Callback) :
    Ready (hash.call c) l ∧ Grows hash (hash.call c) := by
  obtain ⟨hn, hg⟩ := grows_of_u hr.noInd (fun _ => call_u (c := c)) call_table
  exact ⟨⟨hn, hr.sound.call c⟩, hg⟩

/-! Members. -/

theorem addSymbolList_ready (info : Info) (fuel : Nat) {syms : List Sym}
    (hrows : ∀ s ∈ syms, s.row ≠ .indr) (hr : Ready hash l) :
    ∃ hash' l', addSymbolList info (fuel + 2) hash syms = some (true, hash') ∧ Ready hash' l' ∧
      Grows hash hash' ∧ l <+: l' ∧
      ∀ s ∈ syms, s.row = .defn ∨ s.row = .defw → Settled hash' s.name := by
  induction syms generalizing hash l with
  | nil => exact ⟨hash, l, rfl, hr, .refl hash, List.prefix_rfl, by simp⟩
  | cons s syms ih =>
    obtain ⟨hash₁, l₁, hadd, hr₁, hg₁, hl₁, hdef⟩ :=
      addOneSymbol_ready info fuel hr (hrows s (by simp))
    obtain ⟨hash', l', hrun, hr', hg', hl', hall⟩ :=
      ih (fun t ht => hrows t (List.mem_cons_of_mem s ht)) hr₁
    refine ⟨hash', l', ?_, hr', hg₁.trans hg', hl₁.trans hl', ?_⟩
    · simp [addSymbolList, hadd, hrun]
    · intro t ht htrow
      rcases List.mem_cons.mp ht with rfl | ht
      · exact (hdef htrow).grows hg'
      · exact hall t ht htrow

/-- A symbol of a member that may be the reason to add it, whatever it meets. -/
def Asymbol.isDefinition (p : Asymbol) : Bool :=
  !p.sec.isCom && (p.global || p.indirect || p.weak)

/-- What the check of a member does to a table, and what it says about the symbols `ps`. -/
structure Checked (m : Member) (ps : List Asymbol) (hash : Hash) (l : List Nat) (needed : Bool)
    (hash' : Hash) (l' : List Nat) : Prop where
  ready : Ready hash' l'
  grows : Grows hash hash'
  listed : l <+: l'
  added : needed = true → ∀ s ∈ m.symbols, s.row = .defn ∨ s.row = .defw → Settled hash' s.name
  tail : needed = false → hash'.undefsTail = hash.undefsTail
  unwanted : needed = false → ∀ p ∈ ps, p.isDefinition = true → ¬ Wanted hash p.name

/-- The member is added. -/
theorem checked_add (info : Info) (fuel : Nat) (hm : m.Direct) (ps : List Asymbol)
    (hr : Ready hash l) (c : Callback) :
    ∃ hash' l', addSymbolList info (fuel + 2) (hash.call c) m.symbols = some (true, hash') ∧
      Checked m ps hash l true hash' l' := by
  obtain ⟨hr₁, hg₁⟩ := hr.call c
  obtain ⟨hash', l', hrun, hr', hg', hl', hall⟩ := addSymbolList_ready info fuel hm hr₁
  exact ⟨hash', l', hrun, hr', hg₁.trans hg', hl', fun _ => hall, by simp, by simp⟩

/-- A symbol that is no reason to add the member is passed over. -/
theorem Checked.skip {p : Asymbol} {ps : List Asymbol} {needed : Bool}
    (hc : Checked m ps hash l needed hash' l')
    (hp : p.isDefinition = true → ¬ Wanted hash p.name) :
    Checked m (p :: ps) hash l needed hash' l' := by
  refine ⟨hc.ready, hc.grows, hc.listed, hc.added, hc.tail, ?_⟩
  intro hneed q hq
  rcases List.mem_cons.mp hq with rfl | hq
  · exact hp
  · exact hc.unwanted hneed q hq

/-- A wanted symbol becomes a common one, or a larger one, and the check goes on. -/
theorem Checked.common {p : Asymbol} {ps : List Asymbol} {needed : Bool} {v : HashU}
    (hr : Ready hash l) (hv : hash.u h = some v) (hd : Direct v) (hu : u.type = .common)
    (hc : Checked m ps (hash.setU h u) l needed hash' l') (hp : p.isDefinition = false) :
    Checked m (p :: ps) hash l needed hash' l' := by
  have hdu : Direct u := by simp [Direct, hu]
  have hg : Grows hash (hash.setU h u) :=
    (setU_moves hr.noInd hv hd hdu (by rw [hu]; exact hd.rank_le) (fun _ => rfl) rfl).2
  refine ⟨hc.ready, hg.trans hc.grows, hc.listed, hc.added, hc.tail, ?_⟩
  intro hneed q hq hdef
  rcases List.mem_cons.mp hq with rfl | hq
  · rw [hp] at hdef
    cases hdef
  · rintro ⟨i, w, hi, hw, ht⟩
    apply hc.unwanted hneed q hq hdef
    by_cases hih : i = h
    · subst hih
      exact ⟨i, u, hg.real _ _ hi, setU_u_self hw, .inr hu⟩
    · exact ⟨i, w, hg.real _ _ hi, (setU_u_ne hih).trans hw, ht⟩

theorem Ready.setU_common {v : HashU} (hr : Ready hash l) (hv : hash.u h = some v)
    (hd : Direct v) (hu : u.type = .common) : Ready (hash.setU h u) l := by
  have hdu : Direct u := by simp [Direct, hu]
  have hn : NoInd (hash.setU h u) :=
    (setU_moves hr.noInd hv hd hdu (by rw [hu]; exact hd.rank_le) (fun _ => rfl) rfl).1
  refine ⟨hn, hr.sound.setU hv ?_ ?_⟩ <;> simp [hu, HashType.isFresh]

theorem checkArchiveElement_checked (info : Info) (fuel : Nat) (hm : m.Direct)
    (ps : List Asymbol) (hr : Ready hash l) :
    ∃ needed hash' l', checkArchiveElement info (fuel + 2) m hash ps
        = some (true, needed, hash') ∧ Checked m ps hash l needed hash' l' := by
  induction ps generalizing hash l with
  | nil =>
    exact ⟨false, hash, l, rfl, hr, .refl hash, List.prefix_rfl, by simp, fun _ => rfl, by simp⟩
  | cons p ps ih =>
    have hskip : ∀ hp : p.isDefinition = true → ¬ Wanted hash p.name,
        ∃ needed hash' l', checkArchiveElement info (fuel + 2) m hash ps
          = some (true, needed, hash') ∧ Checked m (p :: ps) hash l needed hash' l' := by
      intro hp
      obtain ⟨needed, hash', l', hrun, hc⟩ := ih hr
      exact ⟨needed, hash', l', hrun, hc.skip hp⟩
    rw [checkArchiveElement, hr.lookupFollow]
    split
    · next hnot =>
      refine hskip fun hdef => ?_
      simp_all [Asymbol.isDefinition]
    · next hnot =>
      simp only [Option.bind_eq_bind, Option.bind_some]
      cases hreal : hash.real p.name with
      | none =>
        refine hskip fun _ => ?_
        rintro ⟨i, u, hi, -⟩
        rw [hreal] at hi
        cases hi
      | some h =>
        obtain ⟨v, hv, hd⟩ := hr.real_direct hreal
        have hnotWanted : v.type ≠ .undefined → v.type ≠ .common → ¬ Wanted hash p.name := by
          rintro hu hc ⟨i, w, hi, hw, ht⟩
          rw [hreal, Option.some.injEq] at hi
          subst hi
          rw [hv, Option.some.injEq] at hw
          subst hw
          exact ht.elim hu hc
        simp only [hv]
        cases v with
        | undefined abfd =>
          simp only
          split
          · obtain ⟨hash', l', hrun, hc⟩ :=
              checked_add info fuel hm (p :: ps) hr (.addArchiveElement m.abfd p.name)
            exact ⟨true, hash', l', by simp [hrun], hc⟩
          · next hcom =>
            cases abfd with
            | none => simp at hcom
            | some symbfd =>
              simp only [Option.bind_some]
              have hp : p.isDefinition = false := by simp_all [Asymbol.isDefinition]
              obtain ⟨needed, hash', l', hrun, hc⟩ :=
                ih (hr.setU_common hv hd (u := archiveCommon symbfd p) rfl)
              exact ⟨needed, hash', l', hrun, hc.common hr hv hd rfl hp⟩
        | common size power sec =>
          simp only
          split
          · obtain ⟨hash', l', hrun, hc⟩ :=
              checked_add info fuel hm (p :: ps) hr (.addArchiveElement m.abfd p.name)
            exact ⟨true, hash', l', by simp [hrun], hc⟩
          · next hcom =>
            have hp : p.isDefinition = false := by simp_all [Asymbol.isDefinition]
            split
            · obtain ⟨needed, hash', l', hrun, hc⟩ :=
                ih (hr.setU_common hv hd (u := .common p.value power sec) rfl)
              exact ⟨needed, hash', l', hrun, hc.common hr hv hd rfl hp⟩
            · refine hskip fun hdef => ?_
              rw [hp] at hdef
              cases hdef
        | new | undefweak _ | defined _ _ | defweak _ _ | indirect _ | warning _ _ =>
          exact hskip fun _ => hnotWanted (by simp [HashU.type]) (by simp [HashU.type])

/-- A definition that is added is one that the check looks at. -/
theorem isDefinition_of_toSym {p : Asymbol} {abfd : Nat} {plugin : Bool} {n string : String}
    (hadded : p.isAdded = true)
    (hrow : (p.toSym abfd plugin n string).row = .defn ∨ (p.toSym abfd plugin n string).row = .defw)
    (hcom : p.sec.isCom = false) :
    p.isDefinition = true ∧ ¬ (p.indirect = true ∨ p.sec = .ind) ∧ p.warning = false := by
  have hind : ¬ (p.sec = .ind ∨ p.indirect = true) := by
    intro hind
    simp [Sym.row, Asymbol.toSym, hind] at hrow
  have hwarn : p.warning = false := by
    cases hwarn : p.warning with
    | false => rfl
    | true => simp [Sym.row, Asymbol.toSym, hind, hwarn] at hrow
  have hcons : p.constructor = false := by
    cases hcons : p.constructor with
    | false => rfl
    | true => simp [Sym.row, Asymbol.toSym, hind, hwarn, hcons] at hrow
  have hund : p.sec ≠ .und := by
    intro hund
    rw [not_or] at hind
    cases hweak : p.weak <;>
      simp [Sym.row, Asymbol.toSym, hind.2, hwarn, hcons, hund, hweak] at hrow
  simp_all [Asymbol.isAdded, Asymbol.isDefinition]

theorem mem_symbolList {s : Sym} {abfd : Nat} {plugin : Bool} {ps : List Asymbol}
    (hs : s ∈ symbolList abfd plugin ps) (hrow : s.row = .defn ∨ s.row = .defw)
    (hcom : s.sec.isCom = false) : ∃ p ∈ ps, p.isDefinition = true ∧ p.name = s.name := by
  fun_induction symbolList abfd plugin ps with
  | case1 => cases hs
  | case2 p hadded hind =>
    rw [List.mem_singleton] at hs
    subst hs
    exact absurd hind (isDefinition_of_toSym hadded hrow hcom).2.1
  | case3 p hadded hind q rest ih =>
    rcases List.mem_cons.mp hs with rfl | hs
    · exact absurd hind (isDefinition_of_toSym hadded hrow hcom).2.1
    · obtain ⟨r, hr, hdef⟩ := ih hs
      exact ⟨r, by simp [hr], hdef⟩
  | case4 p hadded hind hwarn =>
    rw [List.mem_singleton] at hs
    subst hs
    rw [(isDefinition_of_toSym hadded hrow hcom).2.2] at hwarn
    cases hwarn
  | case5 p hadded hind hwarn q rest ih =>
    rcases List.mem_cons.mp hs with rfl | hs
    · rw [(isDefinition_of_toSym hadded hrow hcom).2.2] at hwarn
      cases hwarn
    · obtain ⟨r, hr, hdef⟩ := ih hs
      exact ⟨r, by simp [hr], hdef⟩
  | case6 p rest hadded hind hwarn ih =>
    rcases List.mem_cons.mp hs with rfl | hs
    · exact ⟨p, by simp, (isDefinition_of_toSym hadded hrow hcom).1, rfl⟩
    · obtain ⟨r, hr, hdef⟩ := ih hs
      exact ⟨r, by simp [hr], hdef⟩
  | case7 p rest hadded ih =>
    obtain ⟨r, hr, hdef⟩ := ih hs
    exact ⟨r, by simp [hr], hdef⟩

theorem Member.Defines.isDefinition (hd : m.Defines name) :
    ∃ p ∈ m.syms, p.isDefinition = true ∧ p.name = name := by
  obtain ⟨s, hs, rfl, hrow, hcom⟩ := hd
  exact mem_symbolList hs hrow hcom

/-! One entry of the map. -/

/-- The entry that is looked at is struck out because its symbol has type `bfd_link_hash_new`. -/
def StrikesNew (fuel : Nat) (ar : Archive) (st : Search) : Prop :=
  ∃ name offset h, ar.symdefs[st.indx]? = some (name, offset) ∧
    st.included[st.indx]? ≠ some true ∧ st.hash.lookupFollow fuel name = some (some h) ∧
    st.hash.type h = some .new

/-- The file was the last one looked at, and it was added. -/
def Search.justAdded (st : Search) (offset : Nat) : Prop :=
  st.needed = true ∧ st.lastArOffset = some offset

/-- What the search does with one entry. -/
inductive Examined (ar : Archive) (st : Search) (l : List Nat) (name : String) (offset : Nat) :
    Search → Prop
  | skip (hincl : st.included[st.indx]? = some true ∨
      (¬ st.justAdded offset ∧ ¬ Undefined st.hash name)) :
    Examined ar st l name offset { st with indx := st.indx + 1 }
  | strike (hwhy : st.justAdded offset ∨ Settled st.hash name) :
    Examined ar st l name offset
      { st with indx := st.indx + 1, included := st.included.set st.indx true }
  | missing (hm : ar.member offset = none) :
    Examined ar st l name offset { st with result := some false }
  | unneeded (m : Member) (hash : Hash) (l' : List Nat) (hm : ar.member offset = some m)
      (hjust : ¬ st.justAdded offset) (hwanted : Wanted st.hash name)
      (hc : Checked m m.syms st.hash l false hash l') :
    Examined ar st l name offset
      { st with indx := st.indx + 1, hash := hash, lastArOffset := some offset, needed := false }
  | add (m : Member) (hash : Hash) (l' : List Nat) (hm : ar.member offset = some m)
      (hincl : st.included[st.indx]? ≠ some true) (hjust : ¬ st.justAdded offset)
      (hc : Checked m m.syms st.hash l true hash l') :
    Examined ar st l name offset
      { st with
        indx := st.indx + 1, hash := hash, lastArOffset := some offset, needed := true
        added := st.added ++ [offset]
        included := markBack ar.symdefs offset st.indx st.included
        loop := st.loop || st.hash.undefsTail != hash.undefsTail }

theorem settled_of_type (hr : Ready hash l) (hi : hash.real name = some i)
    (hu : hash.u i = some u) (hnew : u.type ≠ .new) (hund : u.type ≠ .undefined)
    (hweak : u.type ≠ .undefweak) : Settled hash name := by
  obtain ⟨v, hv, hd⟩ := hr.real_direct hi
  rw [hu, Option.some.injEq] at hv
  subst hv
  refine ⟨i, u, hi, hu, hd, ?_⟩
  cases u <;> simp_all [HashU.type, HashType.rank]

theorem examine_examined (info : Info) (hr : Ready st.hash l)
    (hmem : ∀ offset m, ar.member offset = some m → m.Direct)
    (hat : ar.symdefs[st.indx]? = some (name, offset)) (hnew : ¬ StrikesNew (fuel + 2) ar st) :
    ∃ st', examine info (fuel + 2) ar st name offset = some st' ∧
      Examined ar st l name offset st' := by
  unfold examine
  by_cases hincl : st.included[st.indx]? = some true
  · exact ⟨_, by simp [hincl], .skip (.inl hincl)⟩
  by_cases hjust : st.justAdded offset
  · refine ⟨_, ?_, .strike (.inl hjust)⟩
    simp [hincl, hjust.1, hjust.2]
  have hjust' : ¬ (st.needed = true ∧ st.lastArOffset = some offset) := hjust
  simp only [if_neg hincl, if_neg hjust', hr.lookupFollow, Option.bind_eq_bind, Option.bind_some]
  cases hreal : st.hash.real name with
  | none =>
    refine ⟨_, rfl, .skip (.inr ⟨hjust, ?_⟩)⟩
    rintro ⟨i, abfd, hi, -⟩
    rw [hreal] at hi
    cases hi
  | some h =>
    obtain ⟨v, hv, hd⟩ := hr.real_direct hreal
    have htype : st.hash.type h = some v.type := by simp [Hash.type, hv]
    simp only [htype]
    split
    · next hnot =>
      split
      · next hweak =>
        have hnew' : v.type ≠ .new := by
          intro hnew'
          exact hnew ⟨name, offset, h, hat, hincl, by rw [hr.lookupFollow, hreal],
            by rw [htype, hnew']⟩
        exact ⟨_, rfl, .strike (.inr (settled_of_type hr hreal hv hnew' hnot.1 hweak))⟩
      · refine ⟨_, rfl, .skip (.inr ⟨hjust, ?_⟩)⟩
        rintro ⟨i, abfd, hi, hu⟩
        rw [hreal, Option.some.injEq] at hi
        subst hi
        rw [hv, Option.some.injEq] at hu
        subst hu
        exact hnot.1 rfl
    · next hwant =>
      cases hm : ar.member offset with
      | none => exact ⟨_, rfl, .missing hm⟩
      | some m =>
        obtain ⟨needed, hash', l', hrun, hc⟩ :=
          checkArchiveElement_checked info fuel (hmem offset m hm) m.syms hr
        simp only [hrun, Option.bind_some]
        cases needed with
        | false =>
          refine ⟨_, rfl, .unneeded m hash' l' hm hjust ⟨h, v, hreal, hv, ?_⟩ hc⟩
          by_cases hund : v.type = .undefined
          · exact .inl hund
          · by_cases hcom : v.type = .common
            · exact .inr hcom
            · exact absurd ⟨hund, hcom⟩ hwant
        | true => exact ⟨_, rfl, .add m hash' l' hm hincl hjust hc⟩

/-! The search. -/

/-- The entries of a file stand next to each other in the map. -/
def Archive.Contiguous (ar : Archive) : Prop :=
  ∀ i j k o : Nat, i ≤ j → j ≤ k → (ar.symdefs[i]?.map Prod.snd) = some o →
    (ar.symdefs[k]?.map Prod.snd) = some o → (ar.symdefs[j]?.map Prod.snd) = some o

/-- The entry's symbol is undefined, and its member defines it. -/
def Left (ar : Archive) (hash : Hash) (name : String) (offset : Nat) : Prop :=
  Undefined hash name ∧ ∃ m, ar.member offset = some m ∧ m.Defines name

/-- What is known about the symbols of the map in the middle of a pass. -/
structure Covered (ar : Archive) (st : Search) (l : List Nat) : Prop where
  ready : Ready st.hash l
  defined : ∀ offset ∈ st.added, ∀ m, ar.member offset = some m → ∀ name, m.Defines name →
    Settled st.hash name
  included : ∀ (k : Nat) name offset, ar.symdefs[k]? = some (name, offset) →
    st.included[k]? = some true → Settled st.hash name ∨ offset ∈ st.added
  passed : st.loop = false → ∀ k < st.indx, ∀ name offset,
    ar.symdefs[k]? = some (name, offset) → ¬ Left ar st.hash name offset
  last : ∀ offset, st.justAdded offset → offset ∈ st.added

theorem Covered.not_left (hc : Covered ar st l) (hadd : offset ∈ st.added) :
    ¬ Left ar st.hash name offset := by
  rintro ⟨hu, m, hm, hd⟩
  exact (hc.defined offset hadd m hm name hd).not_undefined hu

/-- Entries of the past stay behind while the tail of the list does. -/
theorem Covered.not_left_next (hc : Covered ar st l) {k : Nat} (hk : k < st.indx)
    (hat : ar.symdefs[k]? = some (name, offset)) (hloop : st.loop = false) (hr : Ready hash l')
    (hg : Grows st.hash hash) (hl : l <+: l') (htail : hash.undefsTail = st.hash.undefsTail) :
    ¬ Left ar hash name offset := by
  rintro ⟨⟨i, abfd, hi, hu⟩, hd⟩
  obtain ⟨abfd', hi', hu'⟩ := undefined_of_tail hc.ready hr hg hl htail.symm hi hu
  exact hc.passed hloop k hk name offset hat ⟨⟨i, abfd', hi', hu'⟩, hd⟩

theorem lt_succ_cases {k n : Nat} (h : k < n + 1) : k < n ∨ k = n := by omega

theorem Checked.settled {ps : List Asymbol} (hc : Checked m ps hash l true hash' l')
    (hd : m.Defines name) : Settled hash' name := by
  obtain ⟨s, hs, rfl, hrow, -⟩ := hd
  exact hc.added rfl s hs hrow

theorem Checked.not_defines (hc : Checked m m.syms hash l false hash' l')
    (hw : Wanted hash name) : ¬ m.Defines name := by
  intro hd
  obtain ⟨p, hp, hdef, rfl⟩ := hd.isDefinition
  exact hc.unwanted rfl p hp hdef hw

theorem markBack_length (symdefs : List (String × Nat)) (offset mark : Nat)
    (included : List Bool) :
    (markBack symdefs offset mark included).length = included.length := by
  induction mark generalizing included with
  | zero => simp [markBack]
  | succ mark ih =>
    unfold markBack
    split
    · rw [ih, List.length_set]
    · rw [List.length_set]

/-- Only entries of the file are marked. -/
theorem markBack_of_true {symdefs : List (String × Nat)} {mark k : Nat} {included : List Bool}
    (hk : (markBack symdefs offset mark included)[k]? = some true)
    (hmark : (symdefs[mark]?.map Prod.snd) = some offset) :
    included[k]? = some true ∨ (symdefs[k]?.map Prod.snd) = some offset := by
  induction mark generalizing included with
  | zero =>
    rw [markBack, List.getElem?_set] at hk
    split at hk
    · next h0 => exact .inr (h0 ▸ hmark)
    · exact .inl hk
  | succ mark ih =>
    have hset : (included.set (mark + 1) true)[k]? = some true →
        included[k]? = some true ∨ (symdefs[k]?.map Prod.snd) = some offset := by
      intro hk
      rw [List.getElem?_set] at hk
      split at hk
      · next h0 => exact .inr (h0 ▸ hmark)
      · exact .inl hk
    unfold markBack at hk
    split at hk
    · next hprev =>
      rcases ih hk hprev with hk | hk
      · exact hset hk
      · exact .inr hk
    · exact hset hk

/-- The step keeps what is known, whatever it does with the entry. -/
theorem Covered.examined (hc : Covered ar st l)
    (hat : ar.symdefs[st.indx]? = some (name, offset))
    (he : Examined ar st l name offset st') : ∃ l', Covered ar st' l' := by
  have hsame : ∀ {k : Nat} {n o}, ar.symdefs[k]? = some (n, o) → k = st.indx → n = name ∧ o = offset := by
    intro k n o hk hkx
    rw [hkx, hat, Option.some.injEq, Prod.mk.injEq] at hk
    exact ⟨hk.1.symm, hk.2.symm⟩
  cases he with
  | skip hincl =>
    refine ⟨l, hc.ready, hc.defined, hc.included, ?_, hc.last⟩
    intro hloop k hk n o hn
    rcases lt_succ_cases hk with hk | hk
    · exact hc.passed hloop k hk n o hn
    · obtain ⟨rfl, rfl⟩ := hsame hn hk
      rcases hincl with hincl | ⟨-, hund⟩
      · rcases hc.included k n o hn (hk ▸ hincl) with hs | hadd
        · exact fun hleft => hs.not_undefined hleft.1
        · exact hc.not_left hadd
      · exact fun hleft => hund hleft.1
  | strike hwhy =>
    have hwhy : Settled st.hash name ∨ offset ∈ st.added :=
      hwhy.symm.imp_right (hc.last offset)
    refine ⟨l, hc.ready, hc.defined, ?_, ?_, hc.last⟩
    · intro k n o hn hk
      rw [List.getElem?_set] at hk
      split at hk
      · next hkx =>
        obtain ⟨rfl, rfl⟩ := hsame hn hkx.symm
        exact hwhy
      · exact hc.included k n o hn hk
    · intro hloop k hk n o hn
      rcases lt_succ_cases hk with hk | hk
      · exact hc.passed hloop k hk n o hn
      · obtain ⟨rfl, rfl⟩ := hsame hn hk
        rcases hwhy with hs | hadd
        · exact fun hleft => hs.not_undefined hleft.1
        · exact hc.not_left hadd
  | missing hm => exact ⟨l, hc.ready, hc.defined, hc.included, hc.passed, hc.last⟩
  | unneeded m hash' l' hm hjust hwanted hchk =>
    refine ⟨l', hchk.ready, ?_, ?_, ?_, ?_⟩
    · intro o ho m' hm' n hd
      exact (hc.defined o ho m' hm' n hd).grows hchk.grows
    · intro k n o hn hk
      exact (hc.included k n o hn hk).imp_left fun hs => hs.grows hchk.grows
    · intro hloop k hk n o hn
      rcases lt_succ_cases hk with hk | hk
      · exact hc.not_left_next hk hn hloop hchk.ready hchk.grows hchk.listed (hchk.tail rfl)
      · obtain ⟨rfl, rfl⟩ := hsame hn hk
        rintro ⟨-, m', hm', hd⟩
        rw [hm, Option.some.injEq] at hm'
        subst hm'
        exact hchk.not_defines hwanted hd
    · rintro o ⟨hneed, -⟩
      cases hneed
  | add m hash' l' hm hincl hjust hchk =>
    have hdefined : ∀ o ∈ st.added ++ [offset], ∀ m, ar.member o = some m → ∀ n, m.Defines n →
        Settled hash' n := by
      intro o ho m' hm' n hd
      rcases List.mem_append.mp ho with ho | ho
      · exact (hc.defined o ho m' hm' n hd).grows hchk.grows
      · rw [List.mem_singleton.mp ho, hm, Option.some.injEq] at hm'
        subst hm'
        exact hchk.settled hd
    refine ⟨l', hchk.ready, hdefined, ?_, ?_, ?_⟩
    · intro k n o hn hk
      rcases markBack_of_true hk (by rw [hat]; rfl) with hk | hk
      · rcases hc.included k n o hn hk with hs | hadd
        · exact .inl (hs.grows hchk.grows)
        · exact .inr (List.mem_append_left _ hadd)
      · rw [hn, Option.map_some, Option.some.injEq] at hk
        exact .inr (by simp [← hk])
    · intro hloop k hk n o hn
      rw [Bool.or_eq_false_iff, bne_eq_false_iff_eq] at hloop
      rcases lt_succ_cases hk with hk | hk
      · exact hc.not_left_next hk hn hloop.1 hchk.ready hchk.grows hchk.listed hloop.2.symm
      · obtain ⟨rfl, rfl⟩ := hsame hn hk
        rintro ⟨hu, m', hm', hd⟩
        exact (hdefined o (by simp) m' hm' n hd).not_undefined hu
    · rintro o ⟨-, ho⟩
      cases ho
      simp

theorem set_true_mono {included : List Bool} {k : Nat} (hk : included[k]? = some true) (i : Nat) :
    (included.set i true)[k]? = some true := by
  by_cases hik : i = k
  · subst hik
    exact List.getElem?_set_self (List.getElem?_eq_some_iff.mp hk).1
  · rw [List.getElem?_set_ne hik, hk]

theorem markBack_mono {symdefs : List (String × Nat)} {mark k : Nat} {included : List Bool}
    (hk : included[k]? = some true) :
    (markBack symdefs offset mark included)[k]? = some true := by
  induction mark generalizing included with
  | zero => exact set_true_mono hk 0
  | succ mark ih =>
    unfold markBack
    split
    · exact ih (set_true_mono hk _)
    · exact set_true_mono hk _

/-- All entries of the file right before the one looked at are marked. -/
theorem markBack_marks {symdefs : List (String × Nat)} {mark k : Nat} {included : List Bool}
    (hlt : mark < included.length) (hk : k ≤ mark)
    (hall : ∀ j, k ≤ j → j ≤ mark → (symdefs[j]?.map Prod.snd) = some offset) :
    (markBack symdefs offset mark included)[k]? = some true := by
  induction mark generalizing included with
  | zero =>
    obtain rfl : k = 0 := Nat.le_zero.mp hk
    rw [markBack, List.getElem?_set_self hlt]
  | succ mark ih =>
    by_cases hkm : k = mark + 1
    · unfold markBack
      subst hkm
      split
      · exact markBack_mono (List.getElem?_set_self hlt)
      · exact List.getElem?_set_self hlt
    · unfold markBack
      rw [if_pos (hall mark (by omega) (by omega))]
      exact ih (by rw [List.length_set]; omega) (by omega) fun j h₁ h₂ => hall j h₁ (by omega)

/-- Where the entries of added members stand. -/
structure Once (ar : Archive) (st : Search) : Prop where
  nodup : st.added.Nodup
  known : ∀ o ∈ st.added, o ∈ ar.symdefs.map Prod.snd
  length : st.included.length = ar.symdefs.length
  once : ∀ (k : Nat) o, (ar.symdefs[k]?.map Prod.snd) = some o → o ∈ st.added →
    st.included[k]? = some true ∨ (st.indx ≤ k ∧ st.justAdded o)
  last : ∀ o, st.lastArOffset = some o → ∃ j < st.indx, (ar.symdefs[j]?.map Prod.snd) = some o

/-- When another file is looked at, the entries of added members are all marked. -/
theorem Once.included (ho : Once ar st) (hcont : ar.Contiguous)
    (hat : (ar.symdefs[st.indx]?.map Prod.snd) = some offset) (hjust : ¬ st.justAdded offset)
    {k o : Nat} (hk : (ar.symdefs[k]?.map Prod.snd) = some o) (hadd : o ∈ st.added) :
    st.included[k]? = some true := by
  rcases ho.once k o hk hadd with hincl | ⟨hle, hj⟩
  · exact hincl
  · obtain ⟨j, hlt, hjo⟩ := ho.last o hj.2
    have ho := hcont j st.indx k o (Nat.le_of_lt hlt) hle hjo hk
    rw [hat, Option.some.injEq] at ho
    exact absurd (ho ▸ hj) hjust

theorem Once.examined (ho : Once ar st) (hcont : ar.Contiguous)
    (hat : ar.symdefs[st.indx]? = some (name, offset))
    (he : Examined ar st l name offset st') : Once ar st' := by
  have hat' : (ar.symdefs[st.indx]?.map Prod.snd) = some offset := by rw [hat]; rfl
  have hlt : st.indx < st.included.length := by
    rw [ho.length]
    exact (List.getElem?_eq_some_iff.mp hat).1
  have hlast : ∀ o, st.lastArOffset = some o →
      ∃ j < st.indx + 1, (ar.symdefs[j]?.map Prod.snd) = some o := by
    intro o h
    obtain ⟨j, hj, hjo⟩ := ho.last o h
    exact ⟨j, by omega, hjo⟩
  have hlast' : ∀ o, some offset = some o →
      ∃ j < st.indx + 1, (ar.symdefs[j]?.map Prod.snd) = some o := by
    rintro o ho
    cases ho
    exact ⟨st.indx, by omega, hat'⟩
  cases he with
  | skip hincl =>
    refine ⟨ho.nodup, ho.known, ho.length, ?_, hlast⟩
    intro k o hk hadd
    rcases ho.once k o hk hadd with h | ⟨hle, hj⟩
    · exact .inl h
    · by_cases hkx : k = st.indx
      · rw [hkx, hat', Option.some.injEq] at hk
        rcases hincl with hincl | ⟨hjust, -⟩
        · exact .inl (hkx ▸ hincl)
        · exact absurd (hk ▸ hj) hjust
      · exact .inr ⟨by show st.indx + 1 ≤ k; omega, hj⟩
  | strike hwhy =>
    refine ⟨ho.nodup, ho.known, by simpa using ho.length, ?_, hlast⟩
    intro k o hk hadd
    by_cases hkx : st.indx = k
    · exact .inl (by rw [← hkx]; exact List.getElem?_set_self hlt)
    · rcases ho.once k o hk hadd with h | ⟨hle, hj⟩
      · exact .inl ((List.getElem?_set_ne hkx).trans h)
      · exact .inr ⟨by show st.indx + 1 ≤ k; omega, hj⟩
  | missing hm => exact ⟨ho.nodup, ho.known, ho.length, ho.once, ho.last⟩
  | unneeded m hash' l' hm hjust hwanted hchk =>
    exact ⟨ho.nodup, ho.known, ho.length,
      fun k o hk hadd => .inl (ho.included hcont hat' hjust hk hadd), hlast'⟩
  | add m hash' l' hm hincl hjust hchk =>
    have hnot : offset ∉ st.added := fun hadd => hincl (ho.included hcont hat' hjust hat' hadd)
    refine ⟨?_, ?_, ?_, ?_, hlast'⟩
    · rw [List.nodup_append]
      refine ⟨ho.nodup, List.nodup_singleton offset, ?_⟩
      intro x hx y hy hxy
      rw [List.mem_singleton] at hy
      exact hnot (hy ▸ hxy ▸ hx)
    · intro o hadd
      rcases List.mem_append.mp hadd with hadd | hadd
      · exact ho.known o hadd
      · rw [List.mem_singleton.mp hadd]
        exact List.mem_map.mpr ⟨(name, offset), List.mem_of_getElem? hat, rfl⟩
    · rw [markBack_length, ho.length]
    · intro k o hk hadd
      rcases List.mem_append.mp hadd with hadd | hadd
      · exact .inl (markBack_mono (ho.included hcont hat' hjust hk hadd))
      · rw [List.mem_singleton] at hadd
        subst hadd
        by_cases hle : k ≤ st.indx
        · exact .inl (markBack_marks hlt hle fun j h₁ h₂ => hcont k j st.indx o h₁ h₂ hk hat')
        · exact .inr ⟨by show st.indx + 1 ≤ k; omega, rfl, rfl⟩

/-! Passes. -/

/-- Every entry that is looked at, and every pass that follows an added member, lowers this. -/
def Search.measure (ar : Archive) (st : Search) : Nat :=
  (ar.symdefs.length - st.added.length) * (ar.symdefs.length + 2) +
    (if st.loop then ar.symdefs.length + 1 else 0) + (ar.symdefs.length - st.indx)

theorem Once.added_length (ho : Once ar st) : st.added.length ≤ ar.symdefs.length := by
  have h := (List.subperm_of_subset ho.nodup ho.known).length_le
  rwa [List.length_map] at h

theorem Examined.measure_lt (ho : Once ar st') (hindx : st.indx < ar.symdefs.length)
    (hres : st'.result = none) (he : Examined ar st l name offset st') :
    st'.measure ar < st.measure ar := by
  have hlen := ho.added_length
  unfold Search.measure
  cases he with
  | skip _ | strike _ | unneeded _ _ _ _ _ _ _ =>
    simp only
    omega
  | missing _ => cases hres
  | add m hash' l' _ _ _ _ =>
    simp only [List.length_append, List.length_singleton] at hlen ⊢
    obtain ⟨d, hd⟩ : ∃ d, ar.symdefs.length - st.added.length = d + 1 :=
      ⟨ar.symdefs.length - st.added.length - 1, by omega⟩
    have hd' : ar.symdefs.length - (st.added.length + 1) = d := by omega
    rw [hd, hd', Nat.add_one_mul]
    split <;> split <;> omega

/-- A map entry whose symbol is found to be undefined, though the member that the entry points at
defines it. -/
def LeftBehind (fuel : Nat) (ar : Archive) (hash : Hash) (name : String) (offset : Nat) : Prop :=
  ∃ h m, hash.lookupFollow fuel name = some (some h) ∧ hash.type h = some .undefined ∧
    ar.member offset = some m ∧ m.Defines name

theorem LeftBehind.left (hr : Ready hash l) (hl : LeftBehind (fuel + 2) ar hash name offset) :
    Left ar hash name offset := by
  obtain ⟨h, m, hlook, htype, hm, hd⟩ := hl
  rw [hr.lookupFollow, Option.some.injEq] at hlook
  refine ⟨?_, m, hm, hd⟩
  obtain ⟨u, hu, hut⟩ := Option.map_eq_some_iff.mp htype
  cases u with
  | undefined abfd => exact ⟨h, abfd, hlook, hu⟩
  | _ => cases hut

/-- The search has returned, with every entry of the map settled if it returned TRUE. -/
def Finished (fuel : Nat) (ar : Archive) (st : Search) : Prop :=
  st.added.Nodup ∧ (st.result = some false ∨ st.result = some true ∧
    ∀ name offset, (name, offset) ∈ ar.symdefs → ¬ LeftBehind fuel ar st.hash name offset)

theorem searchStep_finished_or_next (info : Info) (hc : Covered ar st l) (ho : Once ar st)
    (hcont : ar.Contiguous) (hmem : ∀ offset m, ar.member offset = some m → m.Direct)
    (hnew : ¬ StrikesNew (fuel + 2) ar st) (hres : st.result = none) :
    ∃ st', searchStep info (fuel + 2) ar st = some st' ∧ (Finished (fuel + 2) ar st' ∨
      ∃ l', Covered ar st' l' ∧ Once ar st' ∧ st'.result = none ∧
        st'.measure ar < st.measure ar) := by
  unfold searchStep
  cases hat : ar.symdefs[st.indx]? with
  | some p =>
    obtain ⟨name, offset⟩ := p
    obtain ⟨st', hrun, he⟩ := examine_examined info hc.ready hmem hat hnew
    obtain ⟨l', hc'⟩ := hc.examined hat he
    have ho' := ho.examined hcont hat he
    refine ⟨st', hrun, ?_⟩
    by_cases hres' : st'.result = none
    · exact .inr ⟨l', hc', ho', hres',
        he.measure_lt ho' (List.getElem?_eq_some_iff.mp hat).1 hres'⟩
    · left
      refine ⟨ho'.nodup, .inl ?_⟩
      cases he <;> first | rfl | exact absurd hres hres'
  | none =>
    have hend : ar.symdefs.length ≤ st.indx := List.getElem?_eq_none_iff.mp hat
    simp only
    split
    · next hloop =>
      refine ⟨_, rfl, .inr ⟨l, ⟨hc.ready, hc.defined, hc.included, ?_, ?_⟩, ?_, hres, ?_⟩⟩
      · intro _ k hk
        exact absurd hk (Nat.not_lt_zero k)
      · rintro o ⟨hneed, -⟩
        cases hneed
      · refine ⟨ho.nodup, ho.known, ho.length, ?_, ?_⟩
        · intro k o hk hadd
          rcases ho.once k o hk hadd with h | ⟨hle, -⟩
          · exact .inl h
          · rw [List.getElem?_eq_none (by omega)] at hk
            cases hk
        · intro o h
          cases h
      · unfold Search.measure
        simp only [hloop, if_true]
        simp
        omega
    · next hloop =>
      refine ⟨_, rfl, .inl ⟨ho.nodup, .inr ⟨rfl, ?_⟩⟩⟩
      intro name offset hin hleft
      obtain ⟨k, hk, hkeq⟩ := List.getElem_of_mem hin
      exact hc.passed (by simpa using hloop) k (by omega) name offset
        (List.getElem?_eq_some_iff.mpr ⟨hk, hkeq⟩) (hleft.left hc.ready)

theorem searchRun_finished (info : Info) (hcont : ar.Contiguous)
    (hmem : ∀ offset m, ar.member offset = some m → m.Direct) (hc : Covered ar st l)
    (ho : Once ar st) (hres : st.result = none)
    (hnew : ∀ n st', searchRun info (fuel + 2) ar n st = some st' → st'.result = none →
      ¬ StrikesNew (fuel + 2) ar st') :
    ∃ n st', searchRun info (fuel + 2) ar n st = some st' ∧ Finished (fuel + 2) ar st' := by
  induction hM : st.measure ar using Nat.strongRecOn generalizing st l with
  | ind M ih =>
    have hstep : ∀ n st', searchStep info (fuel + 2) ar st = some st' →
        searchRun info (fuel + 2) ar (n + 1) st = searchRun info (fuel + 2) ar n st' := by
      intro n st' hst
      rw [searchRun, hres, hst]
      rfl
    obtain ⟨st', hst, hfin | ⟨l', hc', ho', hres', hlt⟩⟩ :=
      searchStep_finished_or_next info hc ho hcont hmem (hnew 0 st rfl hres) hres
    · exact ⟨1, st', hstep 0 st' hst, hfin⟩
    · obtain ⟨n, st'', hrun, hfin⟩ := ih (st'.measure ar) (hM ▸ hlt) hc' ho' hres'
        (fun n st'' hrun => hnew (n + 1) st'' ((hstep n st' hst).trans hrun)) rfl
      exact ⟨n + 1, st'', (hstep n st' hst).trans hrun, hfin⟩

theorem covered_start (hr : Ready hash l) : Covered ar (Search.start ar hash) l := by
  refine ⟨hr, by simp [Search.start], ?_, ?_, ?_⟩
  · intro k name offset hat hk
    simp [Search.start, List.getElem?_replicate] at hk
  · intro _ k hk
    exact absurd hk (Nat.not_lt_zero k)
  · rintro o ⟨hneed, -⟩
    cases hneed

theorem once_start : Once ar (Search.start ar hash) := by
  refine ⟨List.nodup_nil, by simp [Search.start], by simp [Search.start], by simp [Search.start],
    ?_⟩
  intro o h
  cases h

/-- A global symbol of a member. -/
def asym (name : String) (sec : Sec) : Asymbol := ⟨name, true, false, false, false, false, sec, 0⟩

/-- A member that defines `bar` and refers to `foo`. -/
def barMember : Member := ⟨2, false, [asym "bar" .abs, asym "foo" .und]⟩

/-- A member that defines `foo`. -/
def fooMember : Member := ⟨1, false, [asym "foo" .abs]⟩

def twoMembers : Archive where
  symdefs := [("foo", 0), ("bar", 1)]
  member
    | 0 => some fooMember
    | 1 => some barMember
    | _ => none

/-- A reference of an object file to `bar`. -/
def barReference : Sym := ⟨0, false, "bar", false, false, false, false, .und, 0, "bar"⟩

/-- A warning of an object file about `foo`. -/
def fooWarning : Sym :=
  ⟨0, false, "foo", false, false, true, false, .abs, 0, "do not use foo"⟩

theorem searchRun_result {n : Nat} (hres : st.result.isSome = true) :
    searchRun info fuel ar n st = some st := by
  cases n with
  | zero => rfl
  | succ n => rw [searchRun, if_pos hres]

/-- A search that has returned stays as it is. -/
theorem searchRun_after {n k : Nat} (hrun : searchRun info fuel ar k st = some st')
    (hres : st'.result.isSome = true) (hk : k ≤ n) : searchRun info fuel ar n st = some st' := by
  induction k generalizing st n with
  | zero =>
    cases hrun
    exact searchRun_result hres
  | succ k ih =>
    obtain ⟨n, rfl⟩ : ∃ n', n = n' + 1 := ⟨n - 1, by omega⟩
    rw [searchRun] at hrun ⊢
    split at hrun
    · next hst =>
      rw [if_pos hst]
      exact hrun
    · next hst =>
      rw [if_neg hst]
      obtain ⟨st₁, hst₁, hrun⟩ := Option.bind_eq_some_iff.mp hrun
      rw [hst₁, Option.bind_some]
      exact ih hrun (by omega)

theorem twoMembers_direct (offset : Nat) (m : Member) (hm : twoMembers.member offset = some m) :
    m.Direct := by
  match offset, hm with
  | 0, hm =>
    cases hm
    show ∀ s ∈ fooMember.symbols, s.row ≠ .indr
    decide
  | 1, hm =>
    cases hm
    show ∀ s ∈ barMember.symbols, s.row ≠ .indr
    decide

theorem twoMembers_contiguous : twoMembers.Contiguous := by
  intro i j k o hij hjk hi hk
  have hk2 : k < 2 := by
    by_contra hk2
    rw [List.getElem?_eq_none (by show 2 ≤ k; omega)] at hk
    cases hk
  obtain rfl | rfl : j = i ∨ j = k := by omega
  · exact hi
  · exact hk

end FusionBinutils.Bfd.Linker
