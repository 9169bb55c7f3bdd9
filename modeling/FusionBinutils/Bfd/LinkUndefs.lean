import FusionBinutils.Bfd.LinkHash
import FusionBinutils.Lib.LinkedList

/-! The list of undefined symbols over every sequence of added symbols. -/
namespace FusionBinutils.Bfd.Linker

open LinkedList

variable {info : Info} {hash hash' : Hash} {h i : Nat} {u v : HashU} {s : Sym} {e : HashEntry}
  {l l' : List Nat}

/-- Types that an entry has before it is ever put on the list. -/
def HashType.isFresh : HashType → Bool
  | .new | .undefweak => true
  | _ => false

/-- The list is linked from `undefs` to `undefs_tail`, the assertion has not failed, undefined
entries are on the list and new and weak undefined ones are not. -/
structure Sound (hash : Hash) (l : List Nat) : Prop where
  linked : Linked hash.next hash.undefs hash.undefsTail l
  assertFailed : hash.assertFailed = false
  known : ∀ h ∈ l, ∃ u, hash.u h = some u
  fresh : ∀ h u, hash.u h = some u → u.type.isFresh = true → h ∉ l ∧ hash.next h = none
  undefined : ∀ h u, hash.u h = some u → u.type = .undefined → h ∈ l

/-- Every common entry is on the list. -/
def CommonListed (hash : Hash) (l : List Nat) : Prop :=
  ∀ h u, hash.u h = some u → u.type = .common → h ∈ l

theorem u_setU_cases (hu : (hash.setU h u).u i = some v) :
    (i = h ∧ v = u) ∨ (i ≠ h ∧ hash.u i = some v) := by
  rw [setU_u] at hu
  split at hu
  · next hi =>
    obtain ⟨w, -, rfl⟩ := Option.map_eq_some_iff.mp hu
    exact .inl ⟨hi, rfl⟩
  · next hi => exact .inr ⟨hi, hu⟩

theorem setU_known (hk : ∃ v, hash.u i = some v) : ∃ v, (hash.setU h u).u i = some v := by
  obtain ⟨v, hv⟩ := hk
  by_cases hi : i = h
  · subst hi
    exact ⟨u, setU_u_self hv⟩
  · exact ⟨v, (setU_u_ne hi).trans hv⟩

/-! What each change does to the list. -/

theorem Sound.call (hs : Sound hash l) (c : Callback) : Sound (hash.call c) l :=
  ⟨hs.linked, hs.assertFailed, hs.known, hs.fresh, hs.undefined⟩

/-- An entry that was there gets a type that says nothing about the list, or is weak as before. -/
theorem Sound.setU (hs : Sound hash l) (hu : hash.u h = some v)
    (hfresh : u.type.isFresh = true → v.type.isFresh = true) (hundef : u.type ≠ .undefined) :
    Sound (hash.setU h u) l := by
  refine ⟨?_, hs.assertFailed, fun i hi => setU_known (hs.known i hi), ?_, ?_⟩
  · exact hs.linked.congr fun a _ => setU_next
  · intro i w hw hf
    rw [setU_next]
    obtain ⟨rfl, rfl⟩ | ⟨-, hw⟩ := u_setU_cases hw
    · exact hs.fresh i v hu (hfresh hf)
    · exact hs.fresh i w hw hf
  · intro i w hw ht
    obtain ⟨rfl, rfl⟩ | ⟨-, hw⟩ := u_setU_cases hw
    · exact absurd ht hundef
    · exact hs.undefined i w hw ht

/-- The links after an entry was put on the list. -/
theorem linkTail_next (hash : Hash) (h : Nat)
    (hk : ∀ t, hash.undefsTail = some t → ∃ v, hash.u t = some v) :
    (∀ a, hash.undefsTail = some a → (hash.linkTail h).next a = some h) ∧
      ∀ a, hash.undefsTail ≠ some a → (hash.linkTail h).next a = hash.next a := by
  unfold Hash.linkTail
  cases ht : hash.undefsTail with
  | none => exact ⟨fun a ha => absurd ha (by simp), fun a _ => rfl⟩
  | some t =>
    refine ⟨?_, ?_⟩
    · intro a ha
      cases ha
      obtain ⟨w, hw⟩ := hk t ht
      exact setNext_next_self (by simp [hw])
    · intro a ha
      exact setNext_next_ne fun hat => ha (by rw [hat])

theorem Sound.tail_known (hs : Sound hash l) (t : Nat) (ht : hash.undefsTail = some t) :
    ∃ v, hash.u t = some v :=
  hs.known t (List.mem_of_getLast? (hs.linked.tail.trans ht))

/-- `hash'` is `hash` with entry `h` put on the list and set to `u`, in either order. -/
structure PutOn (hash hash' : Hash) (h : Nat) (u : HashU) : Prop where
  u : ∀ i, hash'.u i = (hash.setU h u).u i
  last : ∀ a, hash.undefsTail = some a → hash'.next a = some h
  other : ∀ a, hash.undefsTail ≠ some a → hash'.next a = hash.next a
  undefs : hash'.undefs = if hash.undefs = none then some h else hash.undefs
  undefsTail : hash'.undefsTail = some h
  assertFailed : hash'.assertFailed = (hash.assertFailed || (hash.next h).isSome)

theorem putOn_setU_addUndef (hs : Sound hash l) :
    PutOn hash ((hash.setU h u).addUndef h) h u := by
  obtain ⟨hlast, hother⟩ := linkTail_next (hash.setU h u) h
    fun t ht => setU_known (hs.tail_known t ht)
  refine ⟨fun i => addUndef_u, hlast, ?_, rfl, rfl, ?_⟩
  · intro a ha
    exact (hother a ha).trans setU_next
  · show (hash.assertFailed || ((hash.setU h u).next h).isSome) = _
    rw [setU_next]

theorem putOn_addUndef_setU (hs : Sound hash l) :
    PutOn hash ((hash.addUndef h).setU h u) h u := by
  obtain ⟨hlast, hother⟩ := linkTail_next hash h hs.tail_known
  refine ⟨?_, ?_, ?_, rfl, rfl, rfl⟩
  · intro i
    rw [setU_u, setU_u, addUndef_u, addUndef_u]
  · intro a ha
    exact setU_next.trans (hlast a ha)
  · intro a ha
    exact setU_next.trans (hother a ha)

/-- A fresh entry is put on the list and gets a type that is not fresh. -/
theorem Sound.putOn (hs : Sound hash l) (hu : hash.u h = some v) (hv : v.type.isFresh = true)
    (hu' : u.type.isFresh = false) (hp : PutOn hash hash' h u) : Sound hash' (l ++ [h]) := by
  obtain ⟨hl, hn⟩ := hs.fresh h v hu hv
  have hne : hash.undefsTail ≠ some h := fun ht =>
    hl (List.mem_of_getLast? (hs.linked.tail.trans ht))
  refine ⟨?_, ?_, ?_, ?_, ?_⟩
  · rw [hp.undefs, hp.undefsTail]
    exact hs.linked.snoc hl ((hp.other h hne).trans hn) hp.last fun a _ ha => hp.other a ha
  · rw [hp.assertFailed, hs.assertFailed, hn]
    rfl
  · intro i hi
    rw [hp.u]
    rcases List.mem_append.mp hi with hi | hi
    · exact setU_known (hs.known i hi)
    · rw [List.mem_singleton.mp hi]
      exact ⟨u, setU_u_self hu⟩
  · intro i w hw hf
    rw [hp.u] at hw
    obtain ⟨rfl, rfl⟩ | ⟨hih, hw⟩ := u_setU_cases hw
    · rw [hu'] at hf
      cases hf
    · obtain ⟨hil, hin⟩ := hs.fresh i w hw hf
      have hit : hash.undefsTail ≠ some i := fun ht =>
        hil (List.mem_of_getLast? (hs.linked.tail.trans ht))
      refine ⟨?_, (hp.other i hit).trans hin⟩
      rw [List.mem_append, List.mem_singleton]
      rintro (hi | hi)
      · exact hil hi
      · exact hih hi
  · intro i w hw ht
    rw [hp.u] at hw
    rw [List.mem_append, List.mem_singleton]
    obtain ⟨rfl, rfl⟩ | ⟨-, hw⟩ := u_setU_cases hw
    · exact .inr rfl
    · exact .inl (hs.undefined i w hw ht)

/-- A mark on an entry that is not fresh leaves the list as it is. -/
theorem Sound.markReferenced (hs : Sound hash l) (hu : hash.u h = some v)
    (hv : v.type.isFresh = false) : Sound (hash.markReferenced h) l := by
  unfold Hash.markReferenced
  split
  · next hcond =>
    -- an entry of the list without a link would be its tail
    have hl : h ∉ l := fun hl => hcond.2 (hs.linked.last_of_none hl hcond.1)
    have hne : ∀ a ∈ l, a ≠ h := fun a ha hah => hl (hah ▸ ha)
    refine ⟨?_, hs.assertFailed, ?_, ?_, ?_⟩
    · exact hs.linked.congr fun a ha => setNext_next_ne (hne a ha)
    · intro i hi
      rw [setNext_u]
      exact hs.known i hi
    · intro i w hw hf
      rw [setNext_u] at hw
      have hih : i ≠ h := by
        rintro rfl
        rw [hu, Option.some.injEq] at hw
        rw [hw, hf] at hv
        cases hv
      rw [setNext_next_ne hih]
      exact hs.fresh i w hw hf
    · intro i w hw ht
      rw [setNext_u] at hw
      exact hs.undefined i w hw ht
  · exact hs

/-- A new entry, of the table or for a warning, is not on the list. -/
theorem Sound.push (hs : Sound hash l) (he : hash'.entries = hash.entries ++ [e])
    (hundefs : hash'.undefs = hash.undefs) (htail : hash'.undefsTail = hash.undefsTail)
    (hassert : hash'.assertFailed = hash.assertFailed) (ht : e.u.type ≠ .undefined)
    (hf : e.u.type.isFresh = true → e.next = none) : Sound hash' l := by
  have hne : ∀ i ∈ l, i ≠ hash.entries.length := by
    intro i hi
    obtain ⟨w, hw⟩ := hs.known i hi
    exact ne_length_of_u hw
  refine ⟨?_, by rw [hassert, hs.assertFailed], ?_, ?_, ?_⟩
  · rw [hundefs, htail]
    refine hs.linked.congr fun a ha => ?_
    rw [push_next he, if_neg (hne a ha)]
  · intro i hi
    rw [push_u he, if_neg (hne i hi)]
    exact hs.known i hi
  · intro i w hw hfw
    rw [push_u he] at hw
    rw [push_next he]
    by_cases hi : i = hash.entries.length
    · rw [if_pos hi, Option.some.injEq] at hw
      rw [if_pos hi]
      refine ⟨fun hil => hne i hil hi, hf (hw ▸ hfw)⟩
    · rw [if_neg hi] at hw ⊢
      exact hs.fresh i w hw hfw
  · intro i w hw hu
    rw [push_u he] at hw
    by_cases hi : i = hash.entries.length
    · rw [if_pos hi, Option.some.injEq] at hw
      exact absurd hu (hw ▸ ht)
    · rw [if_neg hi] at hw
      exact hs.undefined i w hw hu

theorem Sound.lookupCreate (hs : Sound hash l) (name : String) :
    Sound (hash.lookupCreate name).2 l := by
  unfold Hash.lookupCreate
  split
  · exact hs
  · exact hs.push rfl rfl rfl rfl (by simp [HashU.type]) (fun _ => rfl)

theorem Sound.makeWarning (hs : Sound hash l) : Sound (makeWarning hash s h e) l :=
  hs.push rfl rfl rfl rfl (by simp [HashU.type]) (by simp [HashU.type, HashType.isFresh])

/-! Common entries. -/

theorem CommonListed.of_u (hc : CommonListed hash l) (hu : ∀ i, hash'.u i = hash.u i) :
    CommonListed hash' l := by
  intro i w hw ht
  rw [hu] at hw
  exact hc i w hw ht

theorem CommonListed.of_setU (hc : CommonListed hash l) (hl : ∀ i ∈ l, i ∈ l')
    (hu : ∀ i, hash'.u i = (hash.setU h u).u i) (hh : u.type = .common → h ∈ l') :
    CommonListed hash' l' := by
  intro i w hw ht
  rw [hu] at hw
  obtain ⟨rfl, rfl⟩ | ⟨-, hw⟩ := u_setU_cases hw
  · exact hh ht
  · exact hl i (hc i w hw ht)

theorem CommonListed.push (hc : CommonListed hash l)
    (he : hash'.entries = hash.entries ++ [e]) (ht : e.u.type ≠ .common) :
    CommonListed hash' l := by
  intro i w hw hw'
  rw [push_u he] at hw
  split at hw
  · rw [Option.some.injEq] at hw
    exact absurd hw' (hw ▸ ht)
  · exact hc i w hw hw'

/-! One round of the loop. -/

def Outcome.state : Outcome → Hash
  | .done hash => hash
  | .again hash _ _ => hash
  | .fail hash => hash

/-- What a change of the table from `hash` keeps: the list grows at its end and stays sound; it
also stays complete, unless entry `h` becomes common while it is off the list. -/
def Keeps (hash hash' : Hash) (l : List Nat) (h : Nat) (weak : Prop) : Prop :=
  ∃ l', l <+: l' ∧ Sound hash' l' ∧ (CommonListed hash l → (weak → h ∈ l) → CommonListed hash' l')

theorem Keeps.of_sound {weak : Prop} (hs : Sound hash' l) (hu : ∀ i, hash'.u i = hash.u i) :
    Keeps hash hash' l h weak :=
  ⟨l, List.prefix_rfl, hs, fun hc _ => hc.of_u hu⟩

theorem Keeps.of_setU {weak : Prop} {j : Nat} (hs : Sound hash' l)
    (hu : ∀ i, hash'.u i = (hash.setU j u).u i) (ht : u.type ≠ .common) :
    Keeps hash hash' l h weak :=
  ⟨l, List.prefix_rfl, hs, fun hc _ => hc.of_setU (fun _ hi => hi) hu fun h => absurd h ht⟩

theorem Keeps.of_putOn {weak : Prop} (hs : Sound hash l) (hu : hash.u i = some v)
    (hv : v.type.isFresh = true) (hu' : u.type.isFresh = false) (hp : PutOn hash hash' i u) :
    Keeps hash hash' l h weak :=
  ⟨l ++ [i], List.prefix_append _ _, hs.putOn hu hv hu' hp, fun hc _ =>
    hc.of_setU (fun _ hi => List.mem_append_left _ hi) hp.u fun _ => by simp⟩

theorem Keeps.trans {weak : Prop} {hash₁ : Hash} (h₁ : Keeps hash hash₁ l h weak)
    (h₂ : ∀ l₁, Sound hash₁ l₁ → Keeps hash₁ hash' l₁ h weak) : Keeps hash hash' l h weak := by
  obtain ⟨l₁, hl₁, hs₁, hc₁⟩ := h₁
  obtain ⟨l₂, hl₂, hs₂, hc₂⟩ := h₂ l₁ hs₁
  exact ⟨l₂, hl₁.trans hl₂, hs₂, fun hc hw => hc₂ (hc₁ hc hw) fun w => hl₁.subset (hw w)⟩

theorem type_eq_some {t : HashType} (ht : hash.type h = some t) :
    ∃ v, hash.u h = some v ∧ v.type = t :=
  Option.map_eq_some_iff.mp ht

theorem undefineNew_keeps {inh abfd : Nat} {weak : Prop} (hs : Sound hash l) :
    Keeps hash (hash.undefineNew inh abfd) l h weak := by
  unfold Hash.undefineNew
  split
  · next ht =>
    obtain ⟨w, hw, hwt⟩ := type_eq_some ht
    exact .of_putOn hs hw (by rw [hwt]; rfl) rfl (putOn_setU_addUndef hs)
  · exact .of_sound hs fun i => rfl

theorem undefineNew_known {inh abfd : Nat} (hu : ∃ w, hash.u h = some w) :
    ∃ w, (hash.undefineNew inh abfd).u h = some w := by
  unfold Hash.undefineNew
  split
  · rw [addUndef_u]
    exact setU_known hu
  · exact hu

theorem makeIndirect_keeps {inh : Nat} {weak : Prop} (hs : Sound hash l)
    (hu : ∃ w, hash.u h = some w) : Keeps hash (makeIndirect hash s h inh).state l h weak := by
  unfold makeIndirect
  split
  · exact .of_sound (hs.call _) fun i => rfl
  · obtain ⟨w, hw⟩ : ∃ w, (hash.undefineNew inh s.abfd).u h = some w := undefineNew_known hu
    have hset : Keeps hash ((hash.undefineNew inh s.abfd).setU h (.indirect inh)) l h weak :=
      (undefineNew_keeps hs).trans fun l₁ hs₁ =>
        .of_setU (hs₁.setU hw (by simp [HashU.type, HashType.isFresh]) (by simp [HashU.type]))
          (fun i => rfl) (by simp [HashU.type])
    simp only
    split
    · exact hset
    · exact hset

/-- A common symbol meets an entry that is weak. -/
def MeetsWeak (row : LinkRow) (u : HashU) : Prop :=
  row = .common ∧ (u.type = .undefweak ∨ u.type = .defweak)

theorem com_keeps {sec : Sec} {n : Vma} {k : Nat} {row : LinkRow} (hs : Sound hash l)
    (hu : hash.u h = some v) (hact : linkAction row v.type = .com) :
    Keeps hash ((if v.type = .new then hash.addUndef h else hash).setU h (.common n k sec)) l h
      (MeetsWeak row v) := by
  split
  · next hnew => exact .of_putOn hs hu (by rw [hnew]; rfl) rfl (putOn_addUndef_setU hs)
  · next hnew =>
    refine ⟨l, List.prefix_rfl, hs.setU hu (by simp [HashU.type, HashType.isFresh])
      (by simp [HashU.type]), fun hc hw => hc.of_setU (fun _ hi => hi) (fun i => rfl) fun _ => ?_⟩
    -- what became common was undefined, or weak
    cases hv : v.type <;> cases row <;> simp_all [linkAction, MeetsWeak]
    exact hs.undefined h v hu hv

/-! The actions that need to know the type of the entry. -/

theorem fresh_of_und {row : LinkRow} {t : HashType} (ha : linkAction row t = .und) :
    t.isFresh = true := by
  cases row <;> cases t <;> first | rfl | cases ha

theorem fresh_of_weak {row : LinkRow} {t : HashType} (ha : linkAction row t = .weak) :
    t.isFresh = true := by
  cases row <;> cases t <;> first | rfl | cases ha

theorem not_fresh_of_ref {row : LinkRow} {t : HashType} (ha : linkAction row t = .ref) :
    t.isFresh = false := by
  cases row <;> cases t <;> first | rfl | cases ha

theorem common_of_big {row : LinkRow} {t : HashType} (ha : linkAction row t = .big) :
    t = .common := by
  cases row <;> cases t <;> first | rfl | cases ha

/-- An entry is defined, whatever it was. -/
theorem define_keeps {weak : Prop} (hs : Sound hash l) (hu : hash.u h = some v)
    (hd : u.type = .defined ∨ u.type = .defweak) : Keeps hash (hash.setU h u) l h weak := by
  refine .of_setU (hs.setU hu ?_ ?_) (fun i => rfl) ?_
  · rcases hd with hd | hd <;> simp [hd, HashType.isFresh]
  · rcases hd with hd | hd <;> simp [hd]
  · rcases hd with hd | hd <;> simp [hd]

theorem Keeps.call {weak : Prop} (c : Callback) (hk : Keeps (hash.call c) hash' l h weak) :
    Keeps hash hash' l h weak := hk

theorem makeWarning_keeps {weak : Prop} (hs : Sound hash l) :
    Keeps hash (makeWarning hash s h e) l i weak :=
  ⟨l, List.prefix_rfl, hs.makeWarning, fun hc _ => hc.push rfl (by simp [HashU.type])⟩

theorem performAction_keeps {inh : Option Nat} {row : LinkRow} {o : Outcome}
    (hs : Sound hash l) (he : hash.entries[h]? = some e)
    (ho : performAction info s inh hash h row e = some o) :
    Keeps hash o.state l h (MeetsWeak row e.u) := by
  have hu : hash.u h = some e.u := u_eq_some.mpr ⟨e, he, rfl⟩
  unfold performAction at ho
  split at ho
  case h_1 => cases ho; exact .of_sound hs fun i => rfl
  case h_2 ha =>
    cases ho
    exact .of_putOn hs hu (fresh_of_und ha) rfl (putOn_setU_addUndef hs)
  case h_3 ha =>
    cases ho
    exact .of_setU (hs.setU hu (fun _ => fresh_of_weak ha) (by simp [HashU.type])) (fun i => rfl)
      (by simp [HashU.type])
  case h_4 => cases ho; exact define_keeps (hs.call _) hu (.inl rfl)
  case h_5 => cases ho; exact define_keeps hs hu (.inl rfl)
  case h_6 => cases ho; exact define_keeps hs hu (.inr rfl)
  case h_7 ha => cases ho; exact com_keeps hs hu ha
  case h_8 ha =>
    cases ho
    exact .of_sound (hs.markReferenced hu (not_fresh_of_ref ha)) fun i => markReferenced_u
  case h_9 ha =>
    -- the entry was common before
    simp only at ho
    split at ho
    · next size power sec heq =>
      split at ho
      · cases ho
        refine ⟨l, List.prefix_rfl, (hs.call _).setU hu (by simp [HashU.type, HashType.isFresh])
          (by simp [HashU.type]), fun hc _ => ?_⟩
        exact hc.of_setU (fun _ hi => hi) (fun i => rfl) fun _ => hc h e.u hu (common_of_big ha)
      · cases ho
        exact .of_sound (hs.call _) fun i => rfl
    · cases ho
  case h_10 => cases ho; exact .of_sound (hs.call _) fun i => rfl
  case h_11 =>
    split at ho
    · next link heq =>
      obtain ⟨target, -, ho⟩ := Option.bind_eq_some_iff.mp ho
      split at ho
      · cases ho
        exact .of_sound hs fun i => rfl
      · cases ho
        exact .of_sound (hs.call _) fun i => rfl
    · cases ho
  case h_12 => cases ho; exact .of_sound (hs.call _) fun i => rfl
  case h_13 =>
    obtain ⟨inh, -, ho⟩ := Option.bind_eq_some_iff.mp ho
    cases ho
    exact (makeIndirect_keeps (hs.call _) ⟨_, hu⟩).call _
  case h_14 =>
    obtain ⟨inh, -, ho⟩ := Option.bind_eq_some_iff.mp ho
    cases ho
    exact makeIndirect_keeps hs ⟨_, hu⟩
  case h_15 => cases ho; exact .of_sound (hs.call _) fun i => rfl
  case h_16 =>
    split at ho
    · next link text heq =>
      split at ho
      · cases ho
        exact .of_sound hs fun i => rfl
      · cases ho
        exact .of_setU ((hs.call _).setU hu (by simp [HashU.type, HashType.isFresh])
          (by simp [HashU.type])) (fun i => rfl) (by simp [HashU.type])
    · cases ho
      exact .of_sound hs fun i => rfl
    · cases ho
  case h_17 =>
    split at ho
    · cases ho
      exact .of_sound hs fun i => rfl
    · cases ho
      exact .of_sound hs fun i => rfl
    · cases ho
  case h_18 =>
    split at ho
    · next link heq =>
      cases ho
      exact .of_sound (hs.markReferenced hu (by rw [heq]; rfl)) fun i => markReferenced_u
    · cases ho
  case h_19 =>
    split at ho
    · cases ho
      exact .of_sound (hs.call _) fun i => rfl
    · cases ho
      exact makeWarning_keeps hs
  case h_20 => cases ho; exact makeWarning_keeps hs

/-! The loop follows the links of the table it starts from. -/

/-- A union without the text of its warning. -/
def HashU.strip : HashU → HashU
  | .warning link _ => .warning link none
  | u => u

theorem strip_type : u.strip.type = u.type := by
  cases u <;> rfl

/-- The tables differ in the texts of warnings only. -/
def SameLinks (hash hash' : Hash) : Prop :=
  ∀ i, (hash'.u i).map HashU.strip = (hash.u i).map HashU.strip

theorem follow_congr (hl : SameLinks hash hash') (k : Nat) :
    hash'.follow k h = hash.follow k h := by
  induction k generalizing h with
  | zero => rfl
  | succ k ih =>
    have hh := hl h
    unfold Hash.follow
    cases hu : hash.u h with
    | none =>
      rw [hu] at hh
      rw [Option.map_eq_none_iff.mp hh]
    | some v =>
      rw [hu] at hh
      obtain ⟨v', hv', hstrip⟩ := Option.map_eq_some_iff.mp hh
      rw [hv']
      cases v <;> cases v' <;> simp_all [HashU.strip]

theorem SameLinks.type (hl : SameLinks hash hash') (hu : hash'.u i = some v) :
    ∃ w, hash.u i = some w ∧ w.type = v.type := by
  have hi := hl i
  rw [hu] at hi
  obtain ⟨w, hw, hstrip⟩ := Option.map_eq_some_iff.mp hi.symm
  exact ⟨w, hw, by rw [← strip_type, hstrip, strip_type]⟩

/-- A common symbol goes on with the entry that is linked to. -/
theorem again_common {inh : Option Nat} {h₁ : Nat} {row₁ : LinkRow} (he : hash.entries[h]? = some e)
    (ho : performAction info s inh hash h .common e = some (.again hash' h₁ row₁)) :
    row₁ = .common ∧ SameLinks hash hash' ∧ ∀ k, hash.follow (k + 1) h = hash.follow k h₁ := by
  have hu : hash.u h = some e.u := u_eq_some.mpr ⟨e, he, rfl⟩
  obtain ⟨str, u, next, ir⟩ := e
  cases u <;> simp only [performAction, HashU.type, linkAction] at ho hu
  case indirect link =>
    cases ho
    refine ⟨rfl, fun i => by rw [markReferenced_u], fun k => ?_⟩
    rw [Hash.follow, hu]
  case warning link text =>
    have hfollow : ∀ k, hash.follow (k + 1) h = hash.follow k link := by
      intro k
      rw [Hash.follow, hu]
    cases text with
    | none =>
      cases ho
      exact ⟨rfl, fun i => rfl, hfollow⟩
    | some text =>
      simp only at ho
      split at ho
      · cases ho
        exact ⟨rfl, fun i => rfl, hfollow⟩
      · cases ho
        refine ⟨rfl, fun i => ?_, hfollow⟩
        rw [setU_u]
        split
        · next hi =>
          subst hi
          rw [call_u, hu]
          rfl
        · rfl
  case new => cases ho
  case undefined => cases ho
  case undefweak => cases ho
  case defined => cases ho
  case defweak => cases ho
  case common =>
    split at ho <;> cases ho

theorem makeIndirect_row {inh h₁ : Nat} {row₁ : LinkRow}
    (ho : makeIndirect hash s h inh = .again hash' h₁ row₁) : row₁ = .undef := by
  unfold makeIndirect at ho
  split at ho
  · cases ho
  · simp only at ho
    split at ho
    · cases ho
    · cases ho
      rfl

/-- The row stays, or turns into that of a reference. -/
theorem again_row {inh : Option Nat} {h₁ : Nat} {row row₁ : LinkRow}
    (ho : performAction info s inh hash h row e = some (.again hash' h₁ row₁)) :
    row₁ = row ∨ row₁ = .undef := by
  unfold performAction at ho
  split at ho
  case h_9 => simp only at ho; split at ho; split at ho; all_goals cases ho
  case h_11 =>
    split at ho
    · obtain ⟨target, -, ho⟩ := Option.bind_eq_some_iff.mp ho
      split at ho <;> cases ho
    · cases ho
  case h_13 =>
    obtain ⟨inh, -, ho⟩ := Option.bind_eq_some_iff.mp ho
    exact .inr (makeIndirect_row (Option.some.inj ho))
  case h_14 =>
    obtain ⟨inh, -, ho⟩ := Option.bind_eq_some_iff.mp ho
    exact .inr (makeIndirect_row (Option.some.inj ho))
  case h_16 =>
    split at ho
    · split at ho
      · cases ho
        exact .inl rfl
      · cases ho
        exact .inl rfl
    · cases ho
      exact .inl rfl
    · cases ho
  case h_17 =>
    split at ho
    · cases ho
      exact .inl rfl
    · cases ho
      exact .inl rfl
    · cases ho
  case h_18 =>
    split at ho
    · cases ho
      exact .inl rfl
    · cases ho
  case h_19 => split at ho <;> cases ho
  all_goals cases ho

/-- Weak entries that a common symbol can get to are on the list. -/
def WeakListed (hash : Hash) (l : List Nat) (h : Nat) : Prop :=
  ∀ k i v, hash.follow k h = some i → hash.u i = some v →
    v.type = .undefweak ∨ v.type = .defweak → i ∈ l

theorem actionLoop_keeps {inh : Option Nat} {fuel : Nat} {row : LinkRow} {b : Bool}
    (hs : Sound hash l)
    (hrun : actionLoop info s inh fuel hash h row = some (b, hash'))  :
    ∃ l', l <+: l' ∧ Sound hash' l' ∧
      (CommonListed hash l → (row = .common → WeakListed hash l h) → CommonListed hash' l') := by
  induction fuel generalizing hash h row l with
  | zero => cases hrun
  | succ fuel ih =>
    rw [actionLoop, Option.bind_eq_bind, Option.bind_eq_some_iff] at hrun
    obtain ⟨e, he, hrun⟩ := hrun
    rw [Option.bind_eq_bind, Option.bind_eq_some_iff] at hrun
    obtain ⟨o, ho, hrun⟩ := hrun
    have hu : hash.u h = some e.u := u_eq_some.mpr ⟨e, he, rfl⟩
    obtain ⟨l₁, hl₁, hs₁, hc₁⟩ := performAction_keeps hs he ho
    -- an entry that is weak is where the links end
    have hmeets : (row = .common → WeakListed hash l h) → MeetsWeak row e.u → h ∈ l := by
      rintro hw ⟨hrow, hweak⟩
      refine hw hrow 1 h e.u ?_ hu hweak
      rw [Hash.follow, hu]
      cases hv : e.u <;> simp_all [HashU.type]
    cases o with
    | done hash₁ =>
      cases hrun
      exact ⟨l₁, hl₁, hs₁, fun hc hw => hc₁ hc (hmeets hw)⟩
    | fail hash₁ =>
      cases hrun
      exact ⟨l₁, hl₁, hs₁, fun hc hw => hc₁ hc (hmeets hw)⟩
    | again hash₁ h₁ row₁ =>
      simp only [Outcome.state] at hs₁ hc₁
      obtain ⟨l₂, hl₂, hs₂, hc₂⟩ := ih hs₁ hrun
      refine ⟨l₂, hl₁.trans hl₂, hs₂, fun hc hw => hc₂ (hc₁ hc (hmeets hw)) ?_⟩
      intro hrow₁ k i v hfollow hv hweak
      have hrow : row = .common := by
        rcases again_row ho with hr | hr
        · exact hr.symm.trans hrow₁
        · rw [hrow₁] at hr
          cases hr
      subst hrow
      obtain ⟨-, hsame, hstep⟩ := again_common he ho
      rw [follow_congr hsame, ← hstep] at hfollow
      obtain ⟨w, hw', htype⟩ := hsame.type hv
      rw [← htype] at hweak
      exact hl₁.subset (hw rfl (k + 1) i w hfollow hw' hweak)

/-! A whole call. -/

/-- The state before a common symbol is added: its name leads to a weak entry that is not on the
list. -/
def CommonOnWeak (hash : Hash) (s : Sym) : Prop :=
  s.row = .common ∧ ∃ h k i v l, hash.table.lookup s.name = some h ∧ hash.follow k h = some i ∧
    hash.u i = some v ∧ (v.type = .undefweak ∨ v.type = .defweak) ∧
    Linked hash.next hash.undefs hash.undefsTail l ∧ i ∉ l

theorem CommonOnWeak.of_call {c : Callback} (hw : CommonOnWeak (hash.call c) s) :
    CommonOnWeak hash s := by
  obtain ⟨hrow, h, k, i, v, l, ht, hfollow, hrest⟩ := hw
  have hsame : SameLinks hash (hash.call c) := fun i => rfl
  rw [follow_congr hsame] at hfollow
  exact ⟨hrow, h, k, i, v, l, ht, hfollow, hrest⟩

theorem CommonListed.lookupCreate (hc : CommonListed hash l) (name : String) :
    CommonListed (hash.lookupCreate name).2 l := by
  unfold Hash.lookupCreate
  split
  · exact hc
  · exact hc.push rfl (by simp [HashU.type])

/-- A symbol whose name is not known yet meets a new entry, which is not weak. -/
theorem lookupCreate_weakListed (hs : Sound hash l) (hrow : s.row = .common)
    (hweak : ¬ CommonOnWeak hash s) :
    WeakListed (hash.lookupCreate s.name).2 l (hash.lookupCreate s.name).1 := by
  intro k i v hfollow hv htype
  cases ht : hash.table.lookup s.name with
  | some h =>
    rw [lookupCreate_known ht] at hfollow hv
    by_contra hi
    exact hweak ⟨hrow, h, k, i, v, l, ht, hfollow, hv, htype, hs.linked, hi⟩
  | none =>
    have hnew := lookupCreate_new ht
    cases k with
    | zero => cases hfollow
    | succ k =>
      rw [Hash.follow, hnew, Option.some.injEq] at hfollow
      rw [← hfollow, hnew, Option.some.injEq] at hv
      rw [← hv] at htype
      simp [HashU.type] at htype

theorem lookupEntries_keeps (hs : Sound hash l) :
    Sound (lookupEntries info hash s).2.2 l ∧
      (CommonListed hash l → CommonListed (lookupEntries info hash s).2.2 l) ∧
      (s.row = .common → ¬ CommonOnWeak hash s →
        WeakListed (lookupEntries info hash s).2.2 l (lookupEntries info hash s).2.1) := by
  unfold lookupEntries
  by_cases hindr : s.row = .indr
  · simp only [if_pos hindr]
    refine ⟨(hs.lookupCreate _).lookupCreate _, fun hc => (hc.lookupCreate _).lookupCreate _, ?_⟩
    intro hrow
    rw [hrow] at hindr
    cases hindr
  · simp only [if_neg hindr]
    refine ⟨hs.lookupCreate _, fun hc => hc.lookupCreate _, ?_⟩
    intro hrow hweak
    rw [if_neg (by simp [hrow])]
    exact lookupCreate_weakListed hs hrow hweak

theorem addOneSymbol_keeps {fuel : Nat} {b : Bool} (hs : Sound hash l)
    (hrun : addOneSymbol info fuel hash s = some (b, hash')) :
    ∃ l', l <+: l' ∧ Sound hash' l' ∧
      (CommonListed hash l → ¬ CommonOnWeak hash s → CommonListed hash' l') := by
  -- the message about a missing plugin comes first
  obtain ⟨hash₁, hs₁, hc₁, hw₁, hrun⟩ : ∃ hash₁, Sound hash₁ l ∧
      (CommonListed hash l → CommonListed hash₁ l) ∧
      (¬ CommonOnWeak hash s → ¬ CommonOnWeak hash₁ s) ∧
      actionLoop info s (lookupEntries info hash₁ s).1 fuel (lookupEntries info hash₁ s).2.2
        (lookupEntries info hash₁ s).2.1 s.row = some (b, hash') := by
    unfold addOneSymbol at hrun
    split at hrun
    · exact ⟨_, hs.call _, fun hc => hc, fun hw hw' => hw hw'.of_call, hrun⟩
    · exact ⟨_, hs, fun hc => hc, fun hw => hw, hrun⟩
  obtain ⟨hs₂, hc₂, hw₂⟩ := lookupEntries_keeps hs₁
  obtain ⟨l', hl', hs', hc'⟩ := actionLoop_keeps hs₂ hrun
  exact ⟨l', hl', hs', fun hc hw => hc' (hc₂ (hc₁ hc)) fun hrow => hw₂ hrow (hw₁ hw)⟩

/-! Runs. -/

/-- Add symbols one after the other, whether or not the calls return TRUE. -/
def addRun (info : Info) (fuel : Nat) (hash : Hash) (syms : List Sym) : Option Hash :=
  syms.foldlM (fun hash s => (addOneSymbol info fuel hash s).map Prod.snd) hash

theorem addRun_snoc {fuel : Nat} {syms : List Sym}
    (hrun : addRun info fuel hash (syms ++ [s]) = some hash') :
    ∃ hash₁ b, addRun info fuel hash syms = some hash₁ ∧
      addOneSymbol info fuel hash₁ s = some (b, hash') := by
  rw [addRun, List.foldlM_append, Option.bind_eq_bind, Option.bind_eq_some_iff] at hrun
  obtain ⟨hash₁, hrun₁, hstep⟩ := hrun
  simp only [List.foldlM_cons, List.foldlM_nil, Option.bind_eq_bind] at hstep
  obtain ⟨hash₂, hstep, hpure⟩ := Option.bind_eq_some_iff.mp hstep
  cases hpure
  obtain ⟨⟨b, hash₃⟩, hadd, rfl⟩ := Option.map_eq_some_iff.mp hstep
  exact ⟨hash₁, b, hrun₁, hadd⟩

theorem sound_init : Sound Hash.init [] := by
  refine ⟨Linked.empty _, rfl, by simp, ?_, ?_⟩ <;> simp [Hash.init, Hash.u]

/-- The list is sound in every state, whatever is added. -/
theorem undefs_sound {fuel : Nat} {syms : List Sym}
    (hrun : addRun info fuel Hash.init syms = some hash) : ∃ l, Sound hash l := by
  induction syms using List.reverseRecOn generalizing hash with
  | nil =>
    cases hrun
    exact ⟨[], sound_init⟩
  | append_singleton syms s ih =>
    obtain ⟨hash₁, b, hrun₁, hadd⟩ := addRun_snoc hrun
    obtain ⟨l, hl⟩ := ih hrun₁
    obtain ⟨l', -, hl', -⟩ := addOneSymbol_keeps hl hadd
    exact ⟨l', hl'⟩

/-- The list is linked without repetition from `undefs` to `undefs_tail`, no assertion has failed,
and every undefined or common entry is on it. -/
def UndefsComplete (hash : Hash) : Prop :=
  ∃ l, Linked hash.next hash.undefs hash.undefsTail l ∧ hash.assertFailed = false ∧
    ∀ h u, hash.u h = some u → u.type = .undefined ∨ u.type = .common → h ∈ l

theorem Sound.complete (hs : Sound hash l) (hc : CommonListed hash l) : UndefsComplete hash := by
  refine ⟨l, hs.linked, hs.assertFailed, ?_⟩
  rintro h u hu (ht | ht)
  · exact hs.undefined h u hu ht
  · exact hc h u hu ht

/-- The list is complete as long as no common symbol meets a weak entry that is off the list. -/
theorem undefs_complete_of_run (info : Info) (fuel : Nat) (syms : List Sym) (hash : Hash)
    (hrun : addRun info fuel Hash.init syms = some hash)
    (hsteps : ∀ pre s post before, syms = pre ++ s :: post →
      addRun info fuel Hash.init pre = some before → ¬ CommonOnWeak before s) :
    UndefsComplete hash := by
  suffices h : ∃ l, Sound hash l ∧ CommonListed hash l by
    obtain ⟨l, hs, hc⟩ := h
    exact hs.complete hc
  induction syms using List.reverseRecOn generalizing hash with
  | nil =>
    cases hrun
    exact ⟨[], sound_init, by simp [CommonListed, Hash.init, Hash.u]⟩
  | append_singleton syms s ih =>
    obtain ⟨hash₁, b, hrun₁, hadd⟩ := addRun_snoc hrun
    obtain ⟨l, hs, hc⟩ := ih hash₁ hrun₁ fun pre t post before heq hpre =>
      hsteps pre t (post ++ [s]) before (by simp [heq]) hpre
    obtain ⟨l', -, hs', hc'⟩ := addOneSymbol_keeps hs hadd
    exact ⟨l', hs', hc' hc (hsteps syms s [] hash₁ rfl hrun₁)⟩

/-- A global symbol `x` of file `abfd`. -/
def symX (abfd : Nat) (weak : Bool) (sec : Sec) (value : Vma) : Sym :=
  ⟨abfd, false, "x", weak, false, false, false, sec, value, "x"⟩

/-- A reference before the common symbol puts it on the list. -/
theorem undefs_complete_reference :
    ∃ hash, addRun ⟨id, false, false⟩ 1 Hash.init [symX 0 false .und 0, symX 1 false .com 8]
      = some hash ∧ UndefsComplete hash := by
  refine ⟨_, rfl, undefs_complete_of_run ⟨id, false, false⟩ 1
    [symX 0 false .und 0, symX 1 false .com 8] _ rfl ?_⟩
  rintro pre s post before heq hpre ⟨hrow, h, k, i, v, l, ht, hfollow, hv, htype, -, -⟩
  rcases pre with _ | ⟨a, pre⟩
  · -- the first symbol is not common
    cases heq
    cases hrow
  · obtain ⟨rfl, heq⟩ := List.cons.inj heq
    rcases pre with _ | ⟨b, pre⟩
    · -- the second one meets an undefined entry
      cases heq
      cases hpre
      cases ht
      cases k with
      | zero => cases hfollow
      | succ k =>
        cases hfollow
        cases hv
        rcases htype with htype | htype <;> cases htype
    · have hlen := congrArg List.length heq
      simp at hlen

/-- A weak reference before the common symbol: the symbol is common, and the list is empty. -/
theorem common_after_undefweak_unlisted :
    ∃ hash, addRun ⟨id, false, false⟩ 1 Hash.init [symX 0 true .und 0, symX 1 false .com 8]
      = some hash ∧ ¬ UndefsComplete hash := by
  refine ⟨_, rfl, ?_⟩
  rintro ⟨l, hl, -, hall⟩
  have hmem := hall 0 _ rfl (.inr rfl)
  have hnil : l = [] := List.head?_eq_none_iff.mp hl.head
  rw [hnil] at hmem
  cases hmem

end FusionBinutils.Bfd.Linker
