import FusionBinutils.Gas.LocalLabel

/-! A local label leads to its definition as long as its number fits an `int` and its name fits the
buffer. -/
namespace FusionBinutils.Gas.LocalLabel

variable {n m n' m' : Nat} {char : Nat} {name : Name}

/-! Digits. -/

/-- The characters of a number; there are none for 0. -/
def chars (n : Nat) : Name := ((Nat.digits 10 n).map (· + 48)).reverse

theorem digitsBackwards_eq (room n : Nat) :
    digitsBackwards room n = if n < 10 ^ room then some (chars n).reverse else none := by
  rw [chars, List.reverse_reverse]
  induction room generalizing n with
  | zero =>
    by_cases hn : n = 0
    · subst hn
      rfl
    · rw [digitsBackwards, if_neg (by omega), if_neg (by omega)]
  | succ room ih =>
    rw [digitsBackwards]
    by_cases hn : n = 0
    · subst hn
      simp
    · have hdiv : ((n : Int).tdiv 10) = ((n / 10 : Nat) : Int) := rfl
      have hmod : ((n : Int).tmod 10 + 48).toNat = n % 10 + 48 := by
        have : ((n : Int).tmod 10) = ((n % 10 : Nat) : Int) := rfl
        omega
      have hroom : n / 10 < 10 ^ room ↔ n < 10 ^ (room + 1) := by
        rw [Nat.div_lt_iff_lt_mul (by decide), Nat.pow_succ]
      rw [if_neg (by omega), hdiv, ih, hmod, Nat.digits_def' (by decide) (Nat.pos_of_ne_zero hn)]
      simp only [hroom]
      split
      · rfl
      · rfl

theorem isDigit_chars : ∀ c ∈ chars n, isDigit c = true := by
  intro c hc
  rw [chars, List.mem_reverse, List.mem_map] at hc
  obtain ⟨d, hd, rfl⟩ := hc
  have hlt := Nat.digits_lt_base (by decide) hd
  simp only [isDigit, Bool.and_eq_true, decide_eq_true_eq]
  omega

theorem chars_injective (h : chars n = chars m) : n = m := by
  rw [chars, chars, List.reverse_inj] at h
  rw [← Nat.digits_inj_iff]
  exact List.map_injective_iff.mpr (fun a b hab => Nat.add_right_cancel hab) h

theorem chars_length (n : Nat) : (chars n).length = (Nat.digits 10 n).length := by
  rw [chars, List.length_reverse, List.length_map]

/-- The part of a name that is read as a number. -/
theorem takeWhile_chars {c : Nat} {rest : Name} (hc : isDigit c = false) :
    (chars n ++ c :: rest).takeWhile isDigit = chars n := by
  rw [List.takeWhile_append_of_pos isDigit_chars, List.takeWhile_cons, hc]
  simp

theorem dropWhile_chars {c : Nat} {rest : Name} (hc : isDigit c = false) :
    (chars n ++ c :: rest).dropWhile isDigit = c :: rest := by
  rw [List.dropWhile_append_of_pos isDigit_chars, List.dropWhile_cons, hc]
  simp

theorem bmod_of_lt (h : n < 2 ^ 31) : Int.bmod n (2 ^ 32) = n := by
  apply Int.bmod_eq_of_le_mul_two
  · omega
  · have : ((2 ^ 32 : Nat) : Int) = 2 ^ 32 := rfl
    omega

/-- A number that fits an `int` is read as it was written. -/
theorem number_chars {rest : Name} (hn : n < 2 ^ 31) (hc : isDigit char = false) :
    number (chars n ++ char :: rest) = n := by
  rw [number, takeWhile_chars hc, chars, List.foldl_reverse]
  clear hc
  induction n using Nat.strongRecOn with
  | ind n ih =>
    by_cases h0 : n = 0
    · subst h0
      rfl
    · have hrec := ih (n / 10) (by omega) (by omega)
      rw [Nat.digits_def' (by decide) (Nat.pos_of_ne_zero h0), List.map_cons, List.foldr_cons, hrec]
      have hsum : 10 * ((n / 10 : Nat) : Int) + ((n % 10 + 48 : Nat) : Int) - 48 = (n : Int) := by
        omega
      rw [hsum, bmod_of_lt hn]

/-! Names. -/

/-- The name of an instance of a label. -/
def text (char n m : Nat) : Name := 76 :: (chars n ++ char :: chars m)

/-- The arrays that a name is built in hold it. -/
def Fits (n m : Nat) : Prop :=
  m < 10 ^ 19 ∧ (Nat.digits 10 n).length + (Nat.digits 10 m).length ≤ 21

theorem text_length : (text char n m).length
    = (Nat.digits 10 n).length + (Nat.digits 10 m).length + 2 := by
  simp only [text, List.length_cons, List.length_append, chars_length]
  omega

theorem labelName_eq_some (hn : n < 2 ^ 31) :
    labelName char n m = some name ↔ Fits n m ∧ name = text char n m := by
  have hroom : n < 10 ^ 19 := by omega
  have hlen : (text char n m).length = _ := text_length
  rw [labelName, digitsBackwards_eq, digitsBackwards_eq, if_pos hroom, Option.bind_eq_bind,
    Option.bind_some]
  by_cases hm : m < 10 ^ 19
  · rw [if_pos hm, Option.bind_some, List.reverse_reverse,
      List.reverse_reverse]
    show (if (text char n m).length < 24 then some (text char n m) else none) = some name ↔ _
    by_cases hfit : (Nat.digits 10 n).length + (Nat.digits 10 m).length ≤ 21
    · rw [if_pos (by omega), Option.some.injEq, eq_comm]
      exact ⟨fun h => ⟨⟨hm, hfit⟩, h⟩, fun h => h.2⟩
    · rw [if_neg (by omega)]
      exact ⟨fun h => (by cases h), fun h => absurd h.1.2 hfit⟩
  · rw [if_neg hm]
    exact ⟨fun h => (by cases h), fun h => absurd h.1.1 hm⟩

/-- A name tells the number and the instance of its label. -/
theorem text_injective (hc : isDigit char = false) (h : text char n m = text char n' m') :
    n = n' ∧ m = m' := by
  rw [text, text, List.cons.injEq] at h
  have htake := congrArg (List.takeWhile isDigit) h.2
  have hdrop := congrArg (List.dropWhile isDigit) h.2
  rw [takeWhile_chars hc, takeWhile_chars hc] at htake
  rw [dropWhile_chars hc, dropWhile_chars hc, List.cons.injEq] at hdrop
  exact ⟨chars_injective htake, chars_injective hdrop.2⟩

theorem decode_text (hn : n < 2 ^ 31) (hc : char = dollarLabelChar ∨ char = localLabelChar) :
    ∃ d, decodeLocalLabelName (text char n m) = some d ∧ d.labelNumber = n := by
  have hd : isDigit char = false := by
    rcases hc with rfl | rfl
    · rfl
    · rfl
  simp only [decodeLocalLabelName, text, ne_eq, not_true_eq_false, if_false, dropWhile_chars hd]
  rcases hc with rfl | rfl
  · exact ⟨_, rfl, number_chars hn hd⟩
  · exact ⟨_, rfl, number_chars hn hd⟩

/-- What is decoded is an `int`. -/
theorem number_lt (s : Name) : number s < 2 ^ 31 := by
  rw [number]
  generalize s.takeWhile isDigit = l
  induction l using List.reverseRecOn with
  | nil => decide
  | append_singleton l c ih =>
    rw [List.foldl_append, List.foldl_cons, List.foldl_nil]
    exact Int.bmod_lt (by decide)

theorem decode_lt {d : Decoded} (h : decodeLocalLabelName name = some d) :
    d.labelNumber < 2 ^ 31 := by
  unfold decodeLocalLabelName at h
  split at h
  · cases h
  · split at h
    · cases h
    · split at h
      · cases h
      · split at h
        · cases h
          exact number_lt _
        · split at h
          · cases h
            exact number_lt _
          · cases h

/-! Forward and backward labels. -/

theorem fbLabelInstance_inc (st : FbLabels) (a b : Int) :
    fbLabelInstance (fbLabelInstanceInc st a) b
      = fbLabelInstance st b + if a = b then 1 else 0 := by
  unfold fbLabelInstanceInc fbLabelInstance
  by_cases ha : 0 ≤ a ∧ a.toNat < fbLabelSpecial
  · simp only [dif_pos ha]
    by_cases hb : 0 ≤ b ∧ b.toNat < fbLabelSpecial
    · rw [dif_pos hb, dif_pos hb]
      by_cases hab : a = b
      · subst hab
        rw [Function.update_self, if_pos rfl]
      · have hne : (⟨b.toNat, hb.2⟩ : Fin fbLabelSpecial) ≠ ⟨a.toNat, ha.2⟩ := by
          rw [Ne, Fin.mk.injEq]
          omega
        rw [Function.update_of_ne hne, if_neg hab, Nat.add_zero]
    · have hab : a ≠ b := fun h => hb (h ▸ ha)
      rw [dif_neg hb, dif_neg hb, if_neg hab, Nat.add_zero]
  · simp only [dif_neg ha]
    by_cases hb : 0 ≤ b ∧ b.toNat < fbLabelSpecial
    · have hab : a ≠ b := fun h => ha (h ▸ hb)
      rw [dif_pos hb, dif_pos hb, if_neg hab, Nat.add_zero]
    · rw [dif_neg hb, dif_neg hb, Table.get?_upsert]
      by_cases hab : a = b
      · subst hab
        rw [if_pos rfl, if_pos rfl, Option.getD_some]
      · rw [if_neg hab, if_neg hab, Nat.add_zero]

namespace Fb

variable {evs pre post : List Fb} {e : Fb}

/-- The counter of a label is the number of its definitions. -/
theorem instance_run (h : ∀ e ∈ pre, e.number < 2 ^ 31) :
    fbLabelInstance (run pre) n = pre.count (.defn n) := by
  induction pre using List.reverseRecOn with
  | nil =>
    unfold fbLabelInstance
    split <;> rfl
  | append_singleton pre e ih =>
    have hpre := ih fun x hx => h x (by simp [hx])
    have he : e.number < 2 ^ 31 := h e (by simp)
    rw [run, List.foldl_append, List.foldl_cons, List.foldl_nil, List.count_append, ← hpre]
    cases e with
    | defn k =>
      have hk : k < 2 ^ 31 := he
      rw [exec, fbLabelInstance_inc, bmod_of_lt hk]
      simp [List.count_singleton, run]
    | back k => simp [exec, run]
    | forw k => simp [exec, run]

/-- The instance that a definition makes or a reference means. -/
def instanceOf (pre : List Fb) : Fb → Nat
  | .defn n => pre.count (.defn n) + 1
  | .back n => pre.count (.defn n)
  | .forw n => pre.count (.defn n) + 1

theorem name_run (h : ∀ x ∈ pre, x.number < 2 ^ 31) (he : e.number < 2 ^ 31) :
    e.name (run pre) = labelName localLabelChar e.number (instanceOf pre e) := by
  cases e with
  | defn n =>
    have hn : n < 2 ^ 31 := he
    rw [name, exec, fbLabelName, bmod_of_lt hn, fbLabelInstance_inc, instance_run h, if_pos rfl]
    rfl
  | back n =>
    have hn : n < 2 ^ 31 := he
    rw [name, if_pos (by omega), fbLabelName, bmod_of_lt hn, instance_run h]
    rfl
  | forw n =>
    have hn : n < 2 ^ 31 := he
    rw [name, if_pos (by omega), fbLabelName, bmod_of_lt hn, instance_run h]
    rfl

/-- Every reference gets the name of its definition, every instance has a name of its own, and the
name tells the number of the label. -/
def Resolves (evs : List Fb) : Prop :=
  ∀ pre e post, evs = pre ++ e :: post → ∃ name, e.name (run pre) = some name ∧
    (∀ n, e = .back n → ∀ p m, pre = p ++ .defn n :: m → Fb.defn n ∉ m →
      (Fb.defn n).name (run p) = some name) ∧
    (∀ n, e = .forw n → ∀ m p, post = m ++ .defn n :: p → Fb.defn n ∉ m →
      (Fb.defn n).name (run (pre ++ e :: m)) = some name) ∧
    (∀ pre' e' post', evs = pre' ++ e' :: post' → e'.name (run pre') = some name →
      e'.number = e.number ∧ instanceOf pre' e' = instanceOf pre e) ∧
    ∃ d, decodeLocalLabelName name = some d ∧ d.labelNumber = e.number

/-- The numbers are an `int`, and the names fit. -/
def Small (evs : List Fb) : Prop :=
  ∀ pre e post, evs = pre ++ e :: post → e.number < 2 ^ 31 ∧ Fits e.number (instanceOf pre e)

theorem numbers_of_split (h : ∀ pre e post, evs = pre ++ e :: post → e.number < 2 ^ 31) :
    ∀ e ∈ evs, e.number < 2 ^ 31 := by
  intro e he
  obtain ⟨pre, post, hsplit⟩ := List.append_of_mem he
  exact h pre e post hsplit

theorem resolves_iff (evs : List Fb) : Resolves evs ↔ Small evs := by
  constructor
  · intro h
    have hnumber : ∀ pre e post, evs = pre ++ e :: post → e.number < 2 ^ 31 := by
      intro pre e post hsplit
      obtain ⟨name, -, -, -, -, d, hd, hn⟩ := h pre e post hsplit
      have := decode_lt hd
      omega
    have hall := numbers_of_split hnumber
    intro pre e post hsplit
    have he := hnumber pre e post hsplit
    obtain ⟨name, hname, -⟩ := h pre e post hsplit
    rw [name_run (fun x hx => hall x (by simp [hsplit, hx])) he, labelName_eq_some he] at hname
    exact ⟨he, hname.1⟩
  · intro h
    have hall := numbers_of_split fun pre e post hsplit => (h pre e post hsplit).1
    have hname : ∀ pre e post, evs = pre ++ e :: post →
        e.name (run pre) = some (text localLabelChar e.number (instanceOf pre e)) := by
      intro pre e post hsplit
      obtain ⟨he, hfits⟩ := h pre e post hsplit
      rw [name_run (fun x hx => hall x (by simp [hsplit, hx])) he, labelName_eq_some he]
      exact ⟨hfits, rfl⟩
    intro pre e post hsplit
    refine ⟨_, hname pre e post hsplit, ?_, ?_, ?_, decode_text (h pre e post hsplit).1 (.inr rfl)⟩
    · rintro n rfl p m rfl hm
      rw [hname p _ (m ++ .back n :: post) (by simp [hsplit])]
      have hcount : List.count (Fb.defn n) m = 0 := List.count_eq_zero.mpr hm
      simp [number, instanceOf, hcount]
    · rintro n rfl m p rfl hm
      rw [hname (pre ++ .forw n :: m) _ p (by simp [hsplit])]
      have hcount : List.count (Fb.defn n) m = 0 := List.count_eq_zero.mpr hm
      simp [number, instanceOf, hcount]
    · intro pre' e' post' hsplit' hsame
      rw [hname _ _ _ hsplit', Option.some.injEq] at hsame
      exact text_injective (by decide) hsame

end Fb

/-! Dollar labels. -/

theorem dollarLabelInstance_define (st : DollarLabels) (a b : Int) :
    dollarLabelInstance (defineDollarLabel st a) b
      = dollarLabelInstance st b + if a = b then 1 else 0 := by
  unfold dollarLabelInstance defineDollarLabel
  rw [Table.get?_upsert]
  by_cases hab : a = b
  · subst hab
    simp
  · simp [hab]

theorem dollarLabelDefined_define (st : DollarLabels) (a b : Int) :
    dollarLabelDefined (defineDollarLabel st a) b = (dollarLabelDefined st b || a == b) := by
  unfold dollarLabelDefined defineDollarLabel
  rw [Table.get?_upsert]
  by_cases hab : a = b
  · subst hab
    simp
  · simp [hab]

theorem dollarLabelInstance_clear (st : DollarLabels) (a : Int) :
    dollarLabelInstance (dollarLabelClear st) a = dollarLabelInstance st a := by
  unfold dollarLabelInstance dollarLabelClear
  rw [Table.get?_map fun v : Nat × Bool => (v.1, false), Option.map_map]
  rfl

theorem dollarLabelDefined_clear (st : DollarLabels) (a : Int) :
    dollarLabelDefined (dollarLabelClear st) a = false := by
  unfold dollarLabelDefined dollarLabelClear
  rw [Table.get?_map fun v : Nat × Bool => (v.1, false), Option.map_map]
  cases st.get? a with
  | none => rfl
  | some v => rfl

namespace Dollar

variable {evs pre post : List Dollar} {e : Dollar} {st : DollarLabels}

/-- The label was defined since the last clear. -/
def inScope (n : Nat) (pre : List Dollar) : Bool :=
  pre.foldl (fun b e =>
    match e with
    | .defn m => b || m == n
    | .ref _ => b
    | .clear => false) false

theorem run_snoc : run (pre ++ [e]) = (run pre).bind fun st => e.exec st := by
  simp [run, List.foldlM_append]

theorem bmod_long_of_lt (h : n < 2 ^ 31) : Int.bmod n (2 ^ 64) = n := by
  apply Int.bmod_eq_of_le_mul_two
  · omega
  · have : ((2 ^ 64 : Nat) : Int) = 2 ^ 64 := rfl
    omega

theorem state_run (h : ∀ e ∈ pre, ∀ n, e.number = some n → n < 2 ^ 31)
    (hrun : run pre = some st) (n : Nat) :
    dollarLabelInstance st n = pre.count (.defn n) ∧ dollarLabelDefined st n = inScope n pre := by
  induction pre using List.reverseRecOn generalizing st with
  | nil =>
    cases hrun
    exact ⟨rfl, rfl⟩
  | append_singleton pre e ih =>
    rw [run_snoc, Option.bind_eq_some_iff] at hrun
    obtain ⟨st₀, hrun₀, hexec⟩ := hrun
    obtain ⟨hcount, hscope⟩ := ih (fun x hx => h x (by simp [hx])) hrun₀
    rw [List.count_append, ← hcount, inScope, List.foldl_append, ← inScope, ← hscope]
    cases e with
    | defn k =>
      have hk : k < 2 ^ 31 := h (.defn k) (by simp) k rfl
      rw [exec, bmod_of_lt hk] at hexec
      split at hexec
      · cases hexec
      · cases hexec
        have hbeq : ((k : Int) == (n : Int)) = (k == n) := by
          rw [Bool.eq_iff_iff, beq_iff_eq, beq_iff_eq, Int.natCast_inj]
        rw [dollarLabelInstance_define, dollarLabelDefined_define, hbeq]
        simp [List.count_singleton]
    | ref k =>
      cases hexec
      simp
    | clear =>
      cases hexec
      rw [dollarLabelInstance_clear, dollarLabelDefined_clear]
      simp

/-- The assembler gets behind a statement. -/
def Reached (pre : List Dollar) (e : Dollar) (st : DollarLabels) : Prop :=
  run pre = some st ∧ (e.exec st).isSome

/-- The instance that a definition makes or a reference means. -/
def instanceOf (pre : List Dollar) (e : Dollar) (n : Nat) : Nat :=
  pre.count (.defn n) + if e = .ref n ∧ inScope n pre = true then 0 else 1

theorem name_run (h : ∀ e ∈ pre, ∀ n, e.number = some n → n < 2 ^ 31)
    (hn : n < 2 ^ 31) (he : e.number = some n) (hrun : run pre = some st) :
    e.name st = labelName dollarLabelChar n (instanceOf pre e n) := by
  obtain ⟨hcount, hscope⟩ := state_run h hrun n
  cases e with
  | defn k =>
    cases he
    rw [name, bmod_of_lt hn, dollarLabelName, dollarLabelInstance_define, hcount, if_pos rfl]
    simp [instanceOf]
  | ref k =>
    cases he
    rw [name, if_pos (by omega), bmod_long_of_lt hn, dollarLabelName, hcount, hscope]
    simp [instanceOf]
  | clear => cases he

/-- Every statement before one that is reached was reached. -/
theorem reached_of_run {p m : List Dollar} {x : Dollar} (h : run (p ++ x :: m) = some st) :
    ∃ st', Reached p x st' := by
  rw [run, List.foldlM_append, Option.bind_eq_bind, Option.bind_eq_some_iff] at h
  obtain ⟨st', hrun, h⟩ := h
  rw [List.foldlM_cons, Option.bind_eq_bind, Option.bind_eq_some_iff] at h
  obtain ⟨st'', hexec, -⟩ := h
  exact ⟨st', hrun, by rw [hexec]; rfl⟩

theorem inScope_append {q m : List Dollar} (hc : Dollar.clear ∉ m) (hd : Dollar.defn n ∉ m) :
    inScope n (q ++ m) = inScope n q := by
  induction m using List.reverseRecOn with
  | nil => rw [List.append_nil]
  | append_singleton m x ih =>
    simp only [List.mem_append, List.mem_singleton, not_or] at hc hd
    rw [← List.append_assoc, ← ih hc.1 hd.1, inScope, List.foldl_append, List.foldl_cons,
      List.foldl_nil, inScope]
    cases x with
    | defn k =>
      have hk : (k == n) = false := by
        rw [beq_eq_false_iff_ne]
        rintro rfl
        exact hd.2 rfl
      simp [hk]
    | ref k => rfl
    | clear => exact absurd rfl hc.2

/-- Every reference gets the name of the definition in its scope, every instance has a name of its
own, and the name tells the number of the label. -/
def Resolves (evs : List Dollar) : Prop :=
  ∀ pre e post n st, evs = pre ++ e :: post → e.number = some n → Reached pre e st →
    ∃ name, e.name st = some name ∧
    (e = .ref n → ∀ p m st', pre = p ++ .defn n :: m → Dollar.clear ∉ m → Dollar.defn n ∉ m →
      run p = some st' → (Dollar.defn n).name st' = some name) ∧
    (e = .ref n → ∀ m p st', post = m ++ .defn n :: p → Dollar.clear ∉ m → Dollar.defn n ∉ m →
      Reached (pre ++ e :: m) (.defn n) st' → (Dollar.defn n).name st' = some name) ∧
    (∀ pre' e' post' n' st', evs = pre' ++ e' :: post' → e'.number = some n' →
      Reached pre' e' st' → e'.name st' = some name →
      n' = n ∧ instanceOf pre' e' n' = instanceOf pre e n) ∧
    ∃ d, decodeLocalLabelName name = some d ∧ d.labelNumber = n

/-- The numbers are an `int`, and the names fit. -/
def Small (evs : List Dollar) : Prop :=
  ∀ pre e post n st, evs = pre ++ e :: post → e.number = some n → Reached pre e st →
    n < 2 ^ 31 ∧ Fits n (instanceOf pre e n)

theorem numbers_of_reached
    (h : ∀ pre e post n st, evs = pre ++ e :: post → e.number = some n → Reached pre e st →
      n < 2 ^ 31) (hsplit : evs = pre ++ post) (hrun : run pre = some st) :
    ∀ e ∈ pre, ∀ n, e.number = some n → n < 2 ^ 31 := by
  intro e he n hn
  obtain ⟨p, m, rfl⟩ := List.append_of_mem he
  obtain ⟨st', hreached⟩ := reached_of_run hrun
  exact h p e (m ++ post) n st' (by simp [hsplit]) hn hreached

theorem resolves_iff (evs : List Dollar) : Resolves evs ↔ Small evs := by
  constructor
  · intro h
    have hnumber : ∀ pre e post n st, evs = pre ++ e :: post → e.number = some n →
        Reached pre e st → n < 2 ^ 31 := by
      intro pre e post n st hsplit hn hreached
      obtain ⟨name, -, -, -, -, d, hd, hdn⟩ := h pre e post n st hsplit hn hreached
      have := decode_lt hd
      omega
    intro pre e post n st hsplit hn hreached
    have hlt := hnumber pre e post n st hsplit hn hreached
    obtain ⟨name, hname, -⟩ := h pre e post n st hsplit hn hreached
    rw [name_run (numbers_of_reached hnumber hsplit hreached.1) hlt hn hreached.1,
      labelName_eq_some hlt] at hname
    exact ⟨hlt, hname.1⟩
  · intro h
    have hnumber : ∀ pre e post n st, evs = pre ++ e :: post → e.number = some n →
        Reached pre e st → n < 2 ^ 31 :=
      fun pre e post n st hsplit hn hreached => (h pre e post n st hsplit hn hreached).1
    have hname : ∀ pre e post n st, evs = pre ++ e :: post → e.number = some n →
        Reached pre e st → e.name st = some (text dollarLabelChar n (instanceOf pre e n)) := by
      intro pre e post n st hsplit hn hreached
      obtain ⟨hlt, hfits⟩ := h pre e post n st hsplit hn hreached
      rw [name_run (numbers_of_reached hnumber hsplit hreached.1) hlt hn hreached.1,
        labelName_eq_some hlt]
      exact ⟨hfits, rfl⟩
    intro pre e post n st hsplit hn hreached
    have hlt := hnumber pre e post n st hsplit hn hreached
    refine ⟨_, hname pre e post n st hsplit hn hreached, ?_, ?_, ?_, decode_text hlt (.inl rfl)⟩
    · rintro rfl p m st' rfl hc hd hrun'
      obtain ⟨st'', hreached'⟩ := reached_of_run hreached.1
      have hst : st'' = st' := Option.some.inj (hreached'.1.symm.trans hrun')
      subst hst
      rw [hname p (.defn n) (m ++ .ref n :: post) n st'' (by simp [hsplit]) rfl hreached']
      have hscope : inScope n (p ++ .defn n :: m) = true := by
        rw [← List.singleton_append, ← List.append_assoc, inScope_append hc hd, inScope]
        simp
      have hcount : List.count (Dollar.defn n) m = 0 := List.count_eq_zero.mpr hd
      simp [instanceOf, hscope, hcount]
    · rintro rfl m p st' rfl hc hd hreached'
      rw [hname (pre ++ .ref n :: m) (.defn n) p n st' (by simp [hsplit]) rfl hreached']
      -- a definition that is reached is the first of its scope
      have hscope : inScope n pre = false := by
        have hfree := hreached'.2
        have hsplit' : evs = (pre ++ .ref n :: m) ++ .defn n :: p := by simp [hsplit]
        rw [exec, bmod_of_lt hlt,
          (state_run (numbers_of_reached hnumber hsplit' hreached'.1) hreached'.1 n).2,
          inScope_append (by simp [hc]) (by simp [hd])] at hfree
        by_contra hin
        rw [Bool.not_eq_false] at hin
        simp [hin] at hfree
      have hcount : List.count (Dollar.defn n) m = 0 := List.count_eq_zero.mpr hd
      simp [instanceOf, hscope, hcount]
    · intro pre' e' post' n' st' hsplit' hn' hreached' hsame
      rw [hname pre' e' post' n' st' hsplit' hn' hreached', Option.some.injEq] at hsame
      exact text_injective (by decide) hsame

end Dollar

end FusionBinutils.Gas.LocalLabel
