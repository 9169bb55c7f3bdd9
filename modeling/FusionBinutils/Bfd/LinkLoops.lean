import FusionBinutils.Bfd.LinkUndefs
import FusionBinutils.Lib.Chains

/-! Indirect symbols and warnings: when adding symbols makes no loop of links. -/
namespace FusionBinutils.Bfd.Linker

open Chains

variable {info : Info} {hash hash' : Hash} {h i j inh : Nat} {u v : HashU} {s : Sym}
  {e : HashEntry} {row : LinkRow}

/-- `u.i.link`. -/
def HashU.link : HashU → Option Nat
  | .indirect link => some link
  | .warning link _ => some link
  | _ => none

def Hash.link (hash : Hash) (h : Nat) : Option Nat := (hash.u h).bind HashU.link

theorem direct_iff_link : Direct u ↔ u.link = none := by
  cases u <;> simp [Direct, HashU.type, HashU.link]

theorem link_of_u (hu : hash.u h = some u) : hash.link h = u.link := by
  rw [Hash.link, hu, Option.bind_some]

theorem link_congr (hu : ∀ i, hash'.u i = hash.u i) : hash'.link = hash.link := by
  funext i
  rw [Hash.link, Hash.link, hu]

theorem setU_link (hu : hash.u h = some v) :
    (hash.setU h u).link = Function.update hash.link h u.link := by
  funext i
  by_cases hi : i = h
  · subst hi
    rw [Function.update_self, link_of_u (setU_u_self hu)]
  · rw [Function.update_of_ne hi, Hash.link, setU_u_ne hi]
    rfl

/-- What a new entry adds. -/
theorem push_link (he : hash'.entries = hash.entries ++ [e]) :
    hash'.link = Function.update hash.link hash.entries.length e.u.link := by
  funext i
  by_cases hi : i = hash.entries.length
  · subst hi
    rw [Function.update_self, Hash.link, push_u he, if_pos rfl, Option.bind_some]
  · rw [Function.update_of_ne hi, Hash.link, push_u he, if_neg hi]
    rfl

/-- Names and links have entries, and all links end. -/
structure LinksEnd (hash : Hash) : Prop where
  table : ∀ p ∈ hash.table, ∃ u, hash.u p.2 = some u
  inside : ∀ i j, hash.link i = some j → ∃ u, hash.u j = some u
  ends : ∀ i, Ends hash.link i

theorem linksEnd_init : LinksEnd Hash.init := by
  refine ⟨?_, ?_, fun i => .last rfl⟩
  · intro p hp
    cases hp
  · intro i j hij
    cases hij

theorem LinksEnd.congr (hl : LinksEnd hash) (hu : ∀ i, hash'.u i = hash.u i)
    (ht : hash'.table = hash.table) : LinksEnd hash' := by
  refine ⟨?_, ?_, ?_⟩
  · intro p hp
    rw [hu]
    exact hl.table p (ht ▸ hp)
  · intro i j hij
    rw [hu]
    exact hl.inside i j (link_congr hu ▸ hij)
  · rw [link_congr hu]
    exact hl.ends

theorem LinksEnd.call (hl : LinksEnd hash) (c : Callback) : LinksEnd (hash.call c) :=
  hl.congr (fun _ => rfl) rfl

/-- A union whose link, if there is one, does not lead back. -/
theorem LinksEnd.setU (hl : LinksEnd hash) (hu : hash.u h = some v)
    (hlink : ∀ j, u.link = some j → (∃ w, hash.u j = some w) ∧ ¬ Leads hash.link j h) :
    LinksEnd (hash.setU h u) := by
  refine ⟨fun p hp => setU_known (hl.table p hp), ?_, ?_⟩
  · intro i j hij
    apply setU_known
    rw [setU_link hu] at hij
    by_cases hi : i = h
    · subst hi
      rw [Function.update_self] at hij
      exact (hlink j hij).1
    · rw [Function.update_of_ne hi] at hij
      exact hl.inside i j hij
  · intro k
    rw [setU_link hu]
    cases hul : u.link with
    | none =>
      apply (hl.ends k).of_le
      intro i
      by_cases hi : i = h
      · subst hi
        exact .inr (Function.update_self _ _ _)
      · exact .inl (Function.update_of_ne hi _ _)
    | some j => exact ends_update hl.ends (hlink j hul).2 k

theorem LinksEnd.setU_direct (hl : LinksEnd hash) (hu : hash.u h = some v) (hd : u.link = none) :
    LinksEnd (hash.setU h u) := by
  apply hl.setU hu
  intro j hj
  rw [hd] at hj
  cases hj

/-- A new entry, with a link to one that is there. -/
theorem LinksEnd.push (hl : LinksEnd hash) (he : hash'.entries = hash.entries ++ [e])
    (hlink : ∀ j, e.u.link = some j → ∃ w, hash.u j = some w)
    (ht : ∀ p ∈ hash'.table, p ∈ hash.table ∨ p.2 = hash.entries.length) : LinksEnd hash' := by
  have hold : ∀ {i}, (∃ w, hash.u i = some w) → ∃ w, hash'.u i = some w := by
    rintro i ⟨w, hw⟩
    rw [push_u he, if_neg (ne_length_of_u hw)]
    exact ⟨w, hw⟩
  refine ⟨?_, ?_, ?_⟩
  · intro p hp
    rcases ht p hp with hp | hp
    · exact hold (hl.table p hp)
    · rw [hp, push_u he, if_pos rfl]
      exact ⟨e.u, rfl⟩
  · intro i j hij
    apply hold
    rw [push_link he] at hij
    by_cases hi : i = hash.entries.length
    · subst hi
      rw [Function.update_self] at hij
      exact hlink j hij
    · rw [Function.update_of_ne hi] at hij
      exact hl.inside i j hij
  · intro k
    rw [push_link he]
    cases hul : e.u.link with
    | none =>
      apply (hl.ends k).of_le
      intro i
      by_cases hi : i = hash.entries.length
      · subst hi
        exact .inr (Function.update_self _ _ _)
      · exact .inl (Function.update_of_ne hi _ _)
    | some j =>
      apply ends_update hl.ends
      intro hleads
      -- nothing links to the new entry yet, and `j` is not it
      have hj : j = hash.entries.length := by
        apply hleads.eq_of_source
        intro i hi
        obtain ⟨w, hw⟩ := hl.inside i _ hi
        exact ne_length_of_u hw rfl
      obtain ⟨w, hw⟩ := hlink j hul
      exact ne_length_of_u hw hj

theorem LinksEnd.lookupCreate (hl : LinksEnd hash) (name : String) :
    LinksEnd (hash.lookupCreate name).2 ∧
      ∃ w, (hash.lookupCreate name).2.u (hash.lookupCreate name).1 = some w := by
  cases ht : hash.table.lookup name with
  | some h =>
    obtain ⟨l₁, l₂, hsplit, _⟩ := List.lookup_eq_some_iff.mp ht
    have hmem : (name, h) ∈ hash.table := by
      rw [hsplit]
      exact List.mem_append_right l₁ List.mem_cons_self
    rw [lookupCreate_known ht]
    exact ⟨hl, hl.table (name, h) hmem⟩
  | none =>
    refine ⟨?_, .new, lookupCreate_new ht⟩
    have hentries : (hash.lookupCreate name).2.entries
        = hash.entries ++ [⟨name, .new, none, false⟩] := by
      simp [Hash.lookupCreate, ht]
    have htable : (hash.lookupCreate name).2.table = (name, hash.entries.length) :: hash.table := by
      simp [Hash.lookupCreate, ht]
    apply hl.push hentries
    · intro j hj
      cases hj
    · intro p hp
      rw [htable] at hp
      rcases List.mem_cons.mp hp with rfl | hp
      · exact .inr rfl
      · exact .inl hp

theorem LinksEnd.makeWarning (hl : LinksEnd hash) (he : hash.entries[h]? = some e) :
    LinksEnd (makeWarning hash s h e) := by
  have hu : hash.u h = some e.u := u_eq_some.mpr ⟨e, he, rfl⟩
  apply hl.push (e := { e with u := .warning h (some s.string) }) rfl
  · intro j hj
    cases hj
    exact ⟨e.u, hu⟩
  · intro p hp
    obtain ⟨q, hq, rfl⟩ := List.mem_map.mp hp
    split
    · exact .inr rfl
    · exact .inl hq

/-! One round of the loop. -/

/-- What a round leads to: links that end, and where it goes round again, the links as they were
and the entry that is linked to. -/
def Steps (hash : Hash) (h : Nat) (row : LinkRow) : Option Outcome → Prop
  | none => False
  | some (.done hash') => LinksEnd hash'
  | some (.fail hash') => LinksEnd hash'
  | some (.again hash' h' row') =>
    LinksEnd hash' ∧ hash'.link = hash.link ∧ hash.link h = some h' ∧ row' = row

/-- Only a symbol that is indirect makes another one so. -/
theorem indr_of_action {t : HashType} (ha : linkAction row t = .ind ∨ linkAction row t = .cind ∨
    linkAction row t = .mind) : row = .indr := by
  cases row <;> cases t <;> simp [linkAction] at ha ⊢

theorem warning_of_warnc (ha : linkAction row u.type = .warnc) :
    ∃ link text, u = .warning link text := by
  cases row <;> cases u <;> simp [linkAction, HashU.type] at ha ⊢

theorem indirect_of_refc (ha : linkAction row u.type = .refc) : ∃ link, u = .indirect link := by
  cases row <;> cases u <;> simp [linkAction, HashU.type] at ha ⊢

theorem link_of_cycle (ha : linkAction row u.type = .cycle) :
    (∃ link text, u = .warning link text) ∨ ∃ link, u = .indirect link := by
  cases row <;> cases u <;> simp [linkAction, HashU.type] at ha ⊢

theorem common_of_linkAction_big (ha : linkAction row u.type = .big) :
    ∃ size power sec, u = .common size power sec := by
  cases row <;> cases u <;> simp [linkAction, HashU.type] at ha ⊢

theorem LinksEnd.markReferenced (hl : LinksEnd hash) (h : Nat) :
    LinksEnd (hash.markReferenced h) :=
  hl.congr (fun _ => markReferenced_u) markReferenced_table

theorem LinksEnd.addUndef (hl : LinksEnd hash) (h : Nat) : LinksEnd (hash.addUndef h) :=
  hl.congr (fun _ => addUndef_u) addUndef_table

/-- The text of a warning is taken away. -/
theorem LinksEnd.warned {text : Option String} (hl : LinksEnd hash)
    (hu : hash.u h = some (.warning j text)) :
    LinksEnd (hash.setU h (.warning j none)) ∧
      (hash.setU h (.warning j none)).link = hash.link := by
  have hlink : hash.link h = some j := link_of_u hu
  have hsame : (hash.setU h (.warning j none)).link = hash.link := by
    rw [setU_link hu]
    exact Function.update_eq_self_iff.mpr hlink.symm
  refine ⟨⟨fun p hp => setU_known (hl.table p hp), ?_, ?_⟩, hsame⟩
  · intro i k hik
    rw [hsame] at hik
    exact setU_known (hl.inside i k hik)
  · rw [hsame]
    exact hl.ends

/-- A round for a symbol that is not indirect. -/
theorem performAction_steps (hl : LinksEnd hash) (hrow : row ≠ .indr)
    (he : hash.entries[h]? = some e) (inh : Option Nat) :
    Steps hash h row (performAction info s inh hash h row e) := by
  have hu : hash.u h = some e.u := u_eq_some.mpr ⟨e, he, rfl⟩
  have hlink := link_of_u hu
  cases ha : linkAction row e.u.type <;> simp only [performAction, ha]
  case noact => exact hl
  case und => exact (hl.setU_direct hu rfl).addUndef h
  case weak => exact hl.setU_direct hu rfl
  case cdef => exact (hl.call _).setU_direct hu rfl
  case defn => exact hl.setU_direct hu rfl
  case defw => exact hl.setU_direct hu rfl
  case com =>
    split
    · exact (hl.addUndef h).setU_direct (addUndef_u.trans hu) rfl
    · exact hl.setU_direct hu rfl
  case ref => exact hl.markReferenced h
  case cref => exact hl.call _
  case big =>
    obtain ⟨size, power, sec, heu⟩ := common_of_linkAction_big ha
    simp only [heu]
    split
    · exact (hl.call _).setU_direct hu rfl
    · exact hl.call _
  case mdef => exact hl.call _
  case mind => exact absurd (indr_of_action (.inr (.inr ha))) hrow
  case ind => exact absurd (indr_of_action (.inl ha)) hrow
  case cind => exact absurd (indr_of_action (.inr (.inl ha))) hrow
  case set => exact hl.call _
  case mwarn => exact hl.makeWarning he
  case warn =>
    split
    · exact hl.call _
    · exact hl.makeWarning he
  case cycle =>
    rcases link_of_cycle ha with ⟨link, text, heu⟩ | ⟨link, heu⟩
    · rw [heu] at hlink
      simp only [heu]
      exact ⟨hl, rfl, hlink, rfl⟩
    · rw [heu] at hlink
      simp only [heu]
      exact ⟨hl, rfl, hlink, rfl⟩
  case refc =>
    obtain ⟨link, heu⟩ := indirect_of_refc ha
    rw [heu] at hlink
    simp only [heu]
    exact ⟨hl.markReferenced h, link_congr fun _ => markReferenced_u, hlink, rfl⟩
  case warnc =>
    obtain ⟨link, text, heu⟩ := warning_of_warnc ha
    rw [heu] at hu hlink
    cases text with
    | none =>
      simp only [heu]
      exact ⟨hl, rfl, hlink, rfl⟩
    | some text =>
      simp only [heu]
      split
      · exact ⟨hl, rfl, hlink, rfl⟩
      · have hw := (hl.call (.warning text e.string (some s.abfd))).warned hu
        exact ⟨hw.1, hw.2, hlink, rfl⟩

/-! The loop. -/

/-- The loop ends, with enough fuel, and leaves links that end. -/
def Returns (loop : Nat → Option (Bool × Hash)) : Prop :=
  ∃ r k, LinksEnd r.2 ∧ ∀ fuel, k ≤ fuel → loop fuel = some r

/-- A round, and the rounds after it. -/
theorem returns_of_round {inh : Option Nat} {o : Outcome} (he : hash.entries[h]? = some e)
    (ho : performAction info s inh hash h row e = some o)
    (hdone : ∀ hash', o = .done hash' ∨ o = .fail hash' → LinksEnd hash')
    (hagain : ∀ hash' h' row', o = .again hash' h' row' →
      Returns fun fuel => actionLoop info s inh fuel hash' h' row') :
    Returns fun fuel => actionLoop info s inh fuel hash h row := by
  have hround : ∀ fuel, actionLoop info s inh (fuel + 1) hash h row
      = match o with
        | .done hash => some (true, hash)
        | .fail hash => some (false, hash)
        | .again hash h row => actionLoop info s inh fuel hash h row := by
    intro fuel
    rw [actionLoop, he]
    simp only [Option.bind_eq_bind, Option.bind_some, ho]
    cases o <;> rfl
  cases o with
  | done hash' =>
    refine ⟨(true, hash'), 1, hdone hash' (.inl rfl), ?_⟩
    intro fuel hfuel
    obtain ⟨fuel, rfl⟩ := Nat.exists_eq_add_of_le' hfuel
    exact hround fuel
  | fail hash' =>
    refine ⟨(false, hash'), 1, hdone hash' (.inr rfl), ?_⟩
    intro fuel hfuel
    obtain ⟨fuel, rfl⟩ := Nat.exists_eq_add_of_le' hfuel
    exact hround fuel
  | again hash' h' row' =>
    obtain ⟨r, k, hr, hk⟩ := hagain hash' h' row' rfl
    refine ⟨r, k + 1, hr, ?_⟩
    intro fuel hfuel
    obtain ⟨fuel, rfl⟩ : ∃ n, fuel = n + 1 := ⟨fuel - 1, by omega⟩
    exact (hround fuel).trans (hk fuel (by omega))

/-- A round for a symbol that is not indirect; it may go on with what the entry is linked to. -/
theorem returns_of_steps (inh : Option Nat) (hl : LinksEnd hash) (hrow : row ≠ .indr)
    (hu : ∃ u, hash.u h = some u)
    (hagain : ∀ hash' h', LinksEnd hash' → hash'.link = hash.link → hash.link h = some h' →
      Returns fun fuel => actionLoop info s inh fuel hash' h' row) :
    Returns fun fuel => actionLoop info s inh fuel hash h row := by
  obtain ⟨u, hu⟩ := hu
  obtain ⟨e, he, rfl⟩ := u_eq_some.mp hu
  have hsteps : Steps hash h row (performAction info s inh hash h row e) :=
    performAction_steps hl hrow he inh
  cases ho : performAction info s inh hash h row e with
  | none =>
    rw [ho] at hsteps
    exact hsteps.elim
  | some o =>
    rw [ho] at hsteps
    apply returns_of_round he ho
    · rintro hash' (rfl | rfl)
      · exact hsteps
      · exact hsteps
    · rintro hash' h' row' rfl
      obtain ⟨hl', hsame, hlink, rfl⟩ := hsteps
      exact hagain hash' h' hl' hsame hlink

/-- A symbol that is not indirect is taken along the links to where they end. -/
theorem actionLoop_returns {next : Nat → Option Nat} (inh : Option Nat) (hrow : row ≠ .indr)
    (hends : Ends next h) : ∀ {hash : Hash}, LinksEnd hash → hash.link = next →
      (∃ u, hash.u h = some u) → Returns fun fuel => actionLoop info s inh fuel hash h row := by
  induction hends with
  | @last h hlast =>
    rintro hash hl rfl hu
    apply returns_of_steps inh hl hrow hu
    intro hash' h' _ _ hlink
    rw [hlast] at hlink
    cases hlink
  | @link h j hlink _ ih =>
    rintro hash hl rfl hu
    apply returns_of_steps inh hl hrow hu
    intro hash' h' hl' hsame hlink'
    rw [hlink] at hlink'
    cases hlink'
    exact ih hl' hsame (hl'.inside h j (hsame ▸ hlink))

/-! Indirect symbols. -/

/-- From an entry through the warnings about it, to where an indirect symbol is added. -/
def Behind (hash : Hash) : Nat → Nat → Prop :=
  Relation.ReflTransGen fun i j => ∃ text, hash.u i = some (.warning j text)

/-- The entry is made indirect when an indirect symbol is added to it. -/
def TurnsIndirect (hash : Hash) (e : Nat) : Prop :=
  ∃ u, hash.u e = some u ∧
    (linkAction .indr u.type = .ind ∨ linkAction .indr u.type = .cind)

/-- The links from the entry indirected to do not lead back to one that turns indirect, or do so in
one step, which the function finds. -/
def Unlooped (info : Info) (hash : Hash) (s : Sym) : Prop :=
  ∀ inh, (lookupEntries info hash s).1 = some inh →
    ∀ e, Behind (lookupEntries info hash s).2.2 (lookupEntries info hash s).2.1 e →
      TurnsIndirect (lookupEntries info hash s).2.2 e →
        (lookupEntries info hash s).2.2.u inh = some (.indirect e) ∨
          ¬ Leads (lookupEntries info hash s).2.2.link inh e

theorem LinksEnd.undefineNew (hl : LinksEnd hash) (abfd : Nat)
    (hinh : ∃ u, hash.u inh = some u) : LinksEnd (hash.undefineNew inh abfd) ∧
      (hash.undefineNew inh abfd).link = hash.link := by
  obtain ⟨u, hu⟩ := hinh
  rw [Hash.undefineNew]
  split
  case isFalse => exact ⟨hl, rfl⟩
  case isTrue hnew =>
    have hunew : u.link = none := by
      rw [Hash.type, hu, Option.map_some, Option.some_inj] at hnew
      cases u <;> simp [HashU.type, HashU.link] at hnew ⊢
    refine ⟨(hl.setU_direct hu rfl).addUndef inh, ?_⟩
    rw [link_congr fun _ => addUndef_u, setU_link hu]
    exact Function.update_eq_self_iff.mpr ((link_of_u hu).trans hunew).symm

theorem linksEnd_indirect (hl : LinksEnd hash) (abfd : Nat) (hu : ∃ u, hash.u h = some u)
    (hinh : ∃ u, hash.u inh = some u) (hnot : ¬ Leads hash.link inh h) :
    LinksEnd ((hash.undefineNew inh abfd).setU h (.indirect inh)) := by
  obtain ⟨hends, hlink⟩ := hl.undefineNew abfd hinh
  obtain ⟨w, hw⟩ := undefineNew_known hu
  apply hends.setU hw
  intro j hj
  cases hj
  exact ⟨undefineNew_known hinh, hlink ▸ hnot⟩

/-- The entry turns indirect, and a reference goes on along its new link. -/
theorem makeIndirect_returns {inh' : Option Nat} (hl : LinksEnd hash') (hsame : hash'.u = hash.u)
    (he : hash.entries[h]? = some e) (hinh : ∃ u, hash.u inh = some u)
    (hloop : hash.u inh = some (.indirect h) ∨ ¬ Leads hash.link inh h)
    (ho : performAction info s inh' hash h row e = some (makeIndirect hash' s h inh)) :
    Returns fun fuel => actionLoop info s inh' fuel hash h row := by
  have hlink : hash'.link = hash.link := link_congr fun i => congrFun hsame i
  rw [← hsame] at hinh hloop
  rw [← hlink] at hloop
  have hu : ∃ u, hash'.u h = some u := ⟨e.u, hsame ▸ u_eq_some.mpr ⟨e, he, rfl⟩⟩
  apply returns_of_round he ho
  · rintro hash₁ ho₁
    rw [makeIndirect] at ho₁
    split at ho₁
    case isTrue =>
      rcases ho₁ with ho₁ | ho₁
      · cases ho₁
      · cases ho₁
        exact hl.call _
    case isFalse hguard =>
      have hnot := hloop.resolve_left hguard
      have hends := linksEnd_indirect hl s.abfd hu hinh hnot
      dsimp only at ho₁
      split at ho₁
      · rcases ho₁ with ho₁ | ho₁
        · cases ho₁
          exact hends
        · cases ho₁
      · rcases ho₁ with ho₁ | ho₁
        · cases ho₁
        · cases ho₁
  · rintro hash₁ h₁ row₁ ho₁
    rw [makeIndirect] at ho₁
    split at ho₁
    case isTrue => cases ho₁
    case isFalse hguard =>
      have hnot := hloop.resolve_left hguard
      have hends := linksEnd_indirect hl s.abfd hu hinh hnot
      dsimp only at ho₁
      split at ho₁
      · cases ho₁
      · cases ho₁
        obtain ⟨w, hw⟩ : ∃ w, (hash'.undefineNew inh s.abfd).u h = some w := undefineNew_known hu
        exact actionLoop_returns inh' (by decide) (hends.ends h) hends rfl ⟨_, setU_u_self hw⟩

/-- A round for an indirect symbol; only a warning leads it on. -/
theorem returns_of_indr (hl : LinksEnd hash) (hinh : ∃ u, hash.u inh = some u)
    (hu : ∃ u, hash.u h = some u)
    (hloop : TurnsIndirect hash h →
      hash.u inh = some (.indirect h) ∨ ¬ Leads hash.link inh h)
    (hagain : ∀ j text, hash.u h = some (.warning j text) →
      Returns fun fuel => actionLoop info s (some inh) fuel hash j .indr) :
    Returns fun fuel => actionLoop info s (some inh) fuel hash h .indr := by
  obtain ⟨u, hu⟩ := hu
  obtain ⟨e, he, rfl⟩ := u_eq_some.mp hu
  cases heu : e.u with
  | new =>
    have hturns : TurnsIndirect hash h := ⟨_, hu, by rw [heu]; exact .inl rfl⟩
    exact makeIndirect_returns hl rfl he hinh (hloop hturns) (by rw [performAction, heu]; rfl)
  | undefined abfd =>
    have hturns : TurnsIndirect hash h := ⟨_, hu, by rw [heu]; exact .inl rfl⟩
    exact makeIndirect_returns hl rfl he hinh (hloop hturns) (by rw [performAction, heu]; rfl)
  | undefweak abfd =>
    have hturns : TurnsIndirect hash h := ⟨_, hu, by rw [heu]; exact .inl rfl⟩
    exact makeIndirect_returns hl rfl he hinh (hloop hturns) (by rw [performAction, heu]; rfl)
  | defweak sec value =>
    have hturns : TurnsIndirect hash h := ⟨_, hu, by rw [heu]; exact .inl rfl⟩
    exact makeIndirect_returns hl rfl he hinh (hloop hturns) (by rw [performAction, heu]; rfl)
  | common size power sec =>
    have hturns : TurnsIndirect hash h := ⟨_, hu, by rw [heu]; exact .inr rfl⟩
    exact makeIndirect_returns (hl.call _) rfl he hinh (hloop hturns)
      (by rw [performAction, heu]; rfl)
  | defined sec value =>
    apply returns_of_round he (o := .done (hash.call (.multipleDefinition h s.abfd s.sec s.value)))
    · rw [performAction, heu]
      rfl
    · rintro hash' (ho | ho)
      · cases ho
        exact hl.call _
      · cases ho
    · intro hash' h' row' ho
      cases ho
  | indirect link =>
    -- another indirect symbol of the name: there is an entry to compare with
    obtain ⟨v, hv⟩ := hl.inside h link ((link_of_u hu).trans (by rw [heu]; rfl))
    obtain ⟨target, htarget, rfl⟩ := u_eq_some.mp hv
    apply returns_of_round he (o := if target.string = s.string then .done hash
      else .done (hash.call (.multipleDefinition h s.abfd s.sec s.value)))
    · simp only [performAction, heu, HashU.type, linkAction, htarget, Option.bind_eq_bind,
        Option.bind_some]
      split <;> rfl
    · intro hash' ho
      split at ho
      · rcases ho with ho | ho
        · cases ho
          exact hl
        · cases ho
      · rcases ho with ho | ho
        · cases ho
          exact hl.call _
        · cases ho
    · intro hash' h' row' ho
      split at ho <;> cases ho
  | warning link text =>
    apply returns_of_round he (o := .again hash link .indr)
    · rw [performAction, heu]
      rfl
    · rintro hash' (ho | ho)
      · cases ho
      · cases ho
    · intro hash' h' row' ho
      cases ho
      exact hagain link text (hu.trans (congrArg some heu))

/-- An indirect symbol is taken through the warnings about its entry. -/
theorem actionLoop_indr_returns (hl : LinksEnd hash) (hinh : ∃ u, hash.u inh = some u)
    (hends : Ends hash.link h) (hu : ∃ u, hash.u h = some u)
    (hloop : ∀ e, Behind hash h e → TurnsIndirect hash e →
      hash.u inh = some (.indirect e) ∨ ¬ Leads hash.link inh e) :
    Returns fun fuel => actionLoop info s (some inh) fuel hash h .indr := by
  induction hends with
  | @last h hlast =>
    apply returns_of_indr hl hinh hu (hloop h .refl)
    intro j text hw
    have hlink : hash.link h = some j := link_of_u hw
    rw [hlast] at hlink
    cases hlink
  | @link h j hlink _ ih =>
    apply returns_of_indr hl hinh hu (hloop h .refl)
    intro j' text hw
    have hlink' : hash.link h = some j' := link_of_u hw
    rw [hlink] at hlink'
    cases hlink'
    apply ih (hl.inside h j hlink)
    intro e hbehind hturns
    exact hloop e (.head ⟨text, hw⟩ hbehind) hturns

/-! Whole calls, and runs of them. -/

theorem lookupCreate_keeps_known (name : String) (hk : ∃ u, hash.u i = some u) :
    ∃ u, (hash.lookupCreate name).2.u i = some u := by
  cases ht : hash.table.lookup name with
  | some h =>
    rw [lookupCreate_known ht]
    exact hk
  | none =>
    obtain ⟨u, hu⟩ := hk
    have hentries : (hash.lookupCreate name).2.entries
        = hash.entries ++ [⟨name, .new, none, false⟩] := by
      simp [Hash.lookupCreate, ht]
    rw [push_u hentries, if_neg (ne_length_of_u hu)]
    exact ⟨u, hu⟩

theorem lookupEntries_linksEnd (info : Info) (s : Sym) (hl : LinksEnd hash) :
    LinksEnd (lookupEntries info hash s).2.2 ∧
      (∃ u, (lookupEntries info hash s).2.2.u (lookupEntries info hash s).2.1 = some u) ∧
      ∀ inh, (lookupEntries info hash s).1 = some inh →
        ∃ u, (lookupEntries info hash s).2.2.u inh = some u := by
  unfold lookupEntries
  by_cases hindr : s.row = .indr
  · simp only [if_pos hindr]
    obtain ⟨hl₁, hinh⟩ := hl.lookupCreate (info.wrap s.string)
    obtain ⟨hl₂, hu⟩ := hl₁.lookupCreate
      (if s.row = .undef ∨ s.row = .undefw then info.wrap s.name else s.name)
    refine ⟨hl₂, hu, ?_⟩
    intro inh hsome
    cases hsome
    exact lookupCreate_keeps_known _ hinh
  · simp only [if_neg hindr]
    obtain ⟨hl₁, hu⟩ := hl.lookupCreate
      (if s.row = .undef ∨ s.row = .undefw then info.wrap s.name else s.name)
    refine ⟨hl₁, hu, ?_⟩
    intro inh hsome
    cases hsome

/-- A call that makes no loop ends, and leaves links that end. -/
theorem addOneSymbol_returns (hl : LinksEnd hash) (hs : Unlooped info hash s) :
    Returns fun fuel => addOneSymbol info fuel hash s := by
  by_cases hindr : s.row = .indr
  · obtain ⟨hl', hu, hinh⟩ := lookupEntries_linksEnd info s hl
    obtain ⟨inh, hsome⟩ : ∃ inh, (lookupEntries info hash s).1 = some inh := by
      simp only [lookupEntries, if_pos hindr]
      exact ⟨_, rfl⟩
    have hcall : (fun fuel => addOneSymbol info fuel hash s) = fun fuel =>
        actionLoop info s (some inh) fuel (lookupEntries info hash s).2.2
          (lookupEntries info hash s).2.1 .indr := by
      funext fuel
      rw [addOneSymbol, if_neg (by simp [hindr]), ← hsome, ← hindr]
    rw [hcall]
    exact actionLoop_indr_returns hl' (hinh inh hsome) (hl'.ends _) hu (hs inh hsome)
  · simp only [addOneSymbol]
    have hcalled : LinksEnd (if s.row = .common ∧ !info.relocatable ∧ s.name = "__gnu_lto_slim"
        then hash.call (.errorHandler s.abfd "plugin needed to handle lto object") else hash) := by
      split
      · exact hl.call _
      · exact hl
    obtain ⟨hl', hu, _⟩ := lookupEntries_linksEnd info s hcalled
    exact actionLoop_returns _ hindr (hl'.ends _) hl' rfl hu

/-- More fuel gives the same result. -/
theorem actionLoop_le {inh : Option Nat} {r : Bool × Hash} {fuel k : Nat}
    (h₁ : actionLoop info s inh fuel hash h row = some r) (hle : fuel ≤ k) :
    actionLoop info s inh k hash h row = some r := by
  induction fuel generalizing hash h row k with
  | zero => cases h₁
  | succ fuel ih =>
    obtain ⟨k, rfl⟩ : ∃ n, k = n + 1 := ⟨k - 1, by omega⟩
    rw [actionLoop] at h₁ ⊢
    obtain ⟨e, he, h₁⟩ := Option.bind_eq_some_iff.mp h₁
    obtain ⟨o, ho, h₁⟩ := Option.bind_eq_some_iff.mp h₁
    rw [he, Option.bind_eq_bind, Option.bind_some, ho, Option.bind_eq_bind, Option.bind_some]
    cases o with
    | done hash' => exact h₁
    | fail hash' => exact h₁
    | again hash' h' row' => exact ih h₁ (by omega)

/-- The states of runs in which no call makes a loop. -/
inductive UnloopedRun (info : Info) : Hash → Prop
  | init : UnloopedRun info Hash.init
  | call {hash hash' : Hash} {s : Sym} {fuel : Nat} {b : Bool} :
    UnloopedRun info hash → Unlooped info hash s →
      addOneSymbol info fuel hash s = some (b, hash') → UnloopedRun info hash'

theorem UnloopedRun.linksEnd (h : UnloopedRun info hash) : LinksEnd hash := by
  induction h with
  | init => exact linksEnd_init
  | @call hash hash' s fuel b _ hs hcall ih =>
    obtain ⟨r, k, hr, hk⟩ := addOneSymbol_returns ih hs
    have hmore : addOneSymbol info (max fuel k) hash s = some (b, hash') :=
      actionLoop_le hcall (Nat.le_max_left _ _)
    have hsame := (hk (max fuel k) (Nat.le_max_right _ _)).symm.trans hmore
    cases hsame
    exact hr

theorem exists_follow {next : Nat → Option Nat} (hends : Ends next h) (hlink : hash.link = next)
    (hinside : ∀ i j, hash.link i = some j → ∃ u, hash.u j = some u)
    (hu : ∃ u, hash.u h = some u) :
    ∃ fuel i u, hash.follow fuel h = some i ∧ hash.u i = some u ∧ Direct u := by
  induction hends with
  | @last h hlast =>
    obtain ⟨u, hu⟩ := hu
    have hd : Direct u := by
      rw [direct_iff_link, ← link_of_u hu, hlink]
      exact hlast
    refine ⟨1, h, u, ?_, hu, hd⟩
    rw [Hash.follow, hu]
    cases u with
    | indirect link => exact absurd rfl hd.1
    | warning link text => exact absurd rfl hd.2
    | _ => rfl
  | @link h j hj _ ih =>
    rw [← hlink] at hj
    obtain ⟨fuel, i, v, hfollow, hv⟩ := ih (hinside h j hj)
    refine ⟨fuel + 1, i, v, ?_, hv⟩
    obtain ⟨u, hu⟩ := hu
    rw [link_of_u hu] at hj
    rw [Hash.follow, hu]
    cases u with
    | indirect link =>
      cases hj
      exact hfollow
    | warning link text =>
      cases hj
      exact hfollow
    | _ => cases hj

/-- In a run in which no call makes a loop, every such call ends, and following the links from any
entry comes to one that is neither indirect nor a warning. -/
theorem unlooped_links_end (h : UnloopedRun info hash) :
    (∀ s, Unlooped info hash s → ∃ b hash' k, ∀ fuel, k ≤ fuel →
      addOneSymbol info fuel hash s = some (b, hash')) ∧
    ∀ i < hash.entries.length, ∃ fuel j u,
      hash.follow fuel i = some j ∧ hash.u j = some u ∧ Direct u := by
  have hl := h.linksEnd
  refine ⟨?_, ?_⟩
  · intro s hs
    obtain ⟨⟨b, hash'⟩, k, _, hk⟩ := addOneSymbol_returns hl hs
    exact ⟨b, hash', k, hk⟩
  · intro i hi
    have hu : ∃ u, hash.u i = some u := by
      obtain ⟨e, he⟩ : ∃ e, hash.entries[i]? = some e := ⟨_, List.getElem?_eq_getElem hi⟩
      exact ⟨e.u, u_eq_some.mpr ⟨e, he, rfl⟩⟩
    exact exists_follow (hl.ends i) rfl hl.inside hu

/-- An indirect symbol of a file. -/
def indirectSym (name string : String) : Sym where
  abfd := 0
  plugin := false
  name := name
  weak := false
  indirect := true
  warning := false
  constructor := false
  sec := .ind
  value := 0
  string := string

theorem unlooped_links_end_ab : ∃ hash,
    addOneSymbol ⟨id, false, false⟩ 1 Hash.init (indirectSym "a" "b") = some (true, hash) ∧
      ∀ i < hash.entries.length, ∃ fuel j u,
        hash.follow fuel i = some j ∧ hash.u j = some u ∧ Direct u := by
  obtain ⟨hash, hcall⟩ : ∃ hash, addOneSymbol ⟨id, false, false⟩ 1 Hash.init (indirectSym "a" "b")
      = some (true, hash) := ⟨_, rfl⟩
  refine ⟨hash, hcall, (unlooped_links_end (.call .init ?_ hcall)).2⟩
  intro inh hinh e hbehind _
  cases hinh
  right
  intro hleads
  -- the entry of "b" is new, and no warning is about that of "a"
  have he : e = 0 := hleads.eq_of_none rfl
  subst he
  rcases hbehind.cases_head with h | ⟨j, ⟨text, hw⟩, _⟩
  · cases h
  · cases hw

/-- Three entries that are indirect to each other. -/
structure Ring (hash : Hash) : Prop where
  zero : hash.u 0 = some (.indirect 2)
  one : hash.u 1 = some (.indirect 0)
  two : hash.u 2 = some (.indirect 1)

/-- A reference goes round the three entries for ever. -/
theorem Ring.actionLoop (h : Ring hash) {i : Nat} (hi : i = 0 ∨ i = 1 ∨ i = 2) (inh : Option Nat)
    (fuel : Nat) : actionLoop info s inh fuel hash i .undef = none := by
  induction fuel generalizing hash i with
  | zero => rfl
  | succ fuel ih =>
    have hmark : Ring (hash.markReferenced i) := by
      refine ⟨?_, ?_, ?_⟩
      · rw [markReferenced_u, h.zero]
      · rw [markReferenced_u, h.one]
      · rw [markReferenced_u, h.two]
    obtain ⟨j, hj, hu⟩ : ∃ j, (j = 0 ∨ j = 1 ∨ j = 2) ∧ hash.u i = some (.indirect j) := by
      rcases hi with rfl | rfl | rfl
      · exact ⟨2, by decide, h.zero⟩
      · exact ⟨0, by decide, h.one⟩
      · exact ⟨1, by decide, h.two⟩
    obtain ⟨e, he, heu⟩ := u_eq_some.mp hu
    rw [Linker.actionLoop, he, Option.bind_eq_bind, Option.bind_some, performAction, heu]
    exact ih hmark hj

/-- After "a" to "b" and "b" to "c", the call for "c" to "a" does not end. -/
theorem longer_loop_does_not_end : ∃ hash,
    addRun ⟨id, false, false⟩ 3 Hash.init [indirectSym "a" "b", indirectSym "b" "c"] = some hash ∧
      ∀ fuel, addOneSymbol ⟨id, false, false⟩ fuel hash (indirectSym "c" "a") = none := by
  refine ⟨_, rfl, ?_⟩
  intro fuel
  cases fuel with
  | zero => rfl
  | succ fuel =>
    exact Ring.actionLoop ⟨rfl, rfl, rfl⟩ (.inr (.inr rfl)) _ fuel

end FusionBinutils.Bfd.Linker
