import FusionBinutils.Ld.WildWalk
import Mathlib.Computability.Language

/-! `fnmatch` of libiberty, with the flags 0 that its callers give it, and the wildcard patterns it
is for. A string is the list of its characters, without the null character that ends it. -/
namespace FusionBinutils.Ld.Fnmatch

/-- What a bracket expression comes to: `fnmatch` reads past the end of the pattern, it says
`FNM_NOMATCH`, or it goes on with what follows. -/
inductive Bracket
  | fault
  | noMatch
  | rest (p : List Char)
  deriving DecidableEq, Repr

/-- The loop that skips the rest of a bracket expression, which has not come to a `]`; a backslash
takes the next character with it. -/
def skipBracket : Bool → List Char → Bracket
  | true, [] => .fault
  | false, [] => .noMatch
  | true, _ :: p => skipBracket false p
  | false, c :: p => if c = ']' then .rest p else skipBracket (c = '\\') p

/-- The label `matched`. -/
def matchedBracket (negate : Bool) (c : Char) (p : List Char) : Bracket :=
  match if c = ']' then .rest p else skipBracket false p with
  | .rest p => if negate then .noMatch else .rest p
  | r => r

/-- What is done for a range of characters, `c` having been read after it; `next` is the next turn
of the loop. -/
def rangeBracket (negate : Bool) (d cstart cend c : Char) (p : List Char)
    (next : Char → List Char → Bracket) : Bracket :=
  if cstart ≤ d ∧ d ≤ cend then matchedBracket negate c p
  else if c = ']' then if negate then .rest p else .noMatch
  else next c p

/-- The loop over a bracket expression, for the character `d` of the string. -/
def bracketLoop (negate : Bool) (d : Char) : Nat → Char → List Char → Bracket
  | 0, _, _ => .fault
  | fuel + 1, c, p =>
    match if c = '\\' then p else c :: p with
    | [] => .fault
    | [_] => .noMatch
    | cstart :: c :: p =>
      if c = '-' ∧ p.head? ≠ some ']' then
        match p with
        | [] => .noMatch
        | cend :: p =>
          match if cend = '\\' then p else cend :: p with
          | [] => .noMatch
          | [_] => .noMatch
          | cend :: c :: p => rangeBracket negate d cstart cend c p (bracketLoop negate d fuel)
      else rangeBracket negate d cstart cstart c p (bracketLoop negate d fuel)

/-- The case of `[`. -/
def bracket (d : Char) (p : List Char) : Bracket :=
  let negate : Bool := p.head? = some '!' ∨ p.head? = some '^'
  match if negate then p.tail else p with
  | [] => .noMatch
  | c :: p => bracketLoop negate d (p.length + 1) c p

/-- The loop after an asterisk, over the places of the string where the rest may match. -/
def starLoop (test : Char → Bool) (rest : List Char → Option Bool) : List Char → Option Bool
  | [] => some false
  | d :: n =>
    if test d then
      match rest (d :: n) with
      | some false => starLoop test rest n
      | r => r
    else starLoop test rest n

/-- The case of `*`, after that character: the asterisks and question marks that follow each take a
character, and there is no string any more behind its end. -/
def star (rest : List Char → List Char → Option Bool) : List Char → Option (List Char) → Option Bool
  | [], _ => some true
  | c :: p, n =>
    if c = '*' then star rest p (n.bind List.tail?)
    else
      match n with
      | none => none
      | some n =>
        if c = '?' then
          match n with
          | [] => some false
          | _ :: n => star rest p (some n)
        else
          let c1 := if c = '\\' then p.head? else some c
          starLoop (fun d => c = '[' ∨ c1 = some d) (rest (c :: p)) n

/-- The loop of `fnmatch`; there is no answer when it reads past the end of a string. -/
def fnmatchLoop : Nat → List Char → List Char → Option Bool
  | 0, _, _ => none
  | _ + 1, [], n => some n.isEmpty
  | fuel + 1, c :: p, n =>
    if c = '*' then star (fnmatchLoop fuel) p (some n)
    else if c = '\\' then
      match p, n with
      | [], [] => none
      | c :: p, d :: n => if d = c then fnmatchLoop fuel p n else some false
      | _, _ => some false
    else
      match n with
      | [] => some false
      | d :: n =>
        if c = '?' then fnmatchLoop fuel p n
        else if c = '[' then
          match bracket d p with
          | .fault => none
          | .noMatch => some false
          | .rest p => fnmatchLoop fuel p n
        else if c = d then fnmatchLoop fuel p n
        else some false

/-- `fnmatch`, with `some true` for 0 and `some false` for `FNM_NOMATCH`. -/
def fnmatch (pattern string : List Char) : Option Bool :=
  fnmatchLoop (pattern.length + 1) pattern string

variable {p q n : List Char} {a b c d : Char} {negate : Bool} {fuel : Nat}

theorem skipBracket_append {l : List Char} (h : ∀ c ∈ l, c ≠ ']' ∧ c ≠ '\\') (q : List Char) :
    skipBracket false (l ++ ']' :: q) = .rest q := by
  induction l with
  | nil => exact if_pos rfl
  | cons c l ih =>
    obtain ⟨hclose, hquote⟩ := h c List.mem_cons_self
    rw [List.cons_append, skipBracket, if_neg hclose, decide_eq_false hquote]
    exact ih fun d hd => h d (List.mem_cons_of_mem c hd)

/-- The characters that a bracket expression lists: single ones, and ranges. -/
def inBracket (d : Char) : List Char → Bool
  | a :: '-' :: b :: l => decide (a ≤ d ∧ d ≤ b) || inBracket d l
  | a :: l => decide (a = d) || inBracket d l
  | [] => false

/-- How a bracket expression ends. -/
def verdict (negate hit : Bool) (q : List Char) : Bracket :=
  if hit = negate then .noMatch else .rest q

theorem matchedBracket_append {l : List Char} (h : ∀ c ∈ l, c ≠ ']' ∧ c ≠ '\\') (hc : c ≠ ']')
    (q : List Char) : matchedBracket negate c (l ++ ']' :: q) = verdict negate true q := by
  unfold matchedBracket
  rw [if_neg hc, skipBracket_append h]
  cases negate <;> rfl

/-- What follows a range is the next item, or the bracket that closes the expression. -/
theorem rangeBracket_append {l : List Char} (h : ∀ c ∈ l, c ≠ ']' ∧ c ≠ '\\')
    {next : Char → List Char → Bracket}
    (hnext : ∀ y l', l = y :: l' → next y (l' ++ ']' :: q) = verdict negate (inBracket d l) q) :
    ∃ y p, l ++ ']' :: q = y :: p ∧ rangeBracket negate d a b y p next =
      verdict negate (decide (a ≤ d ∧ d ≤ b) || inBracket d l) q := by
  cases l with
  | nil =>
    refine ⟨']', q, rfl, ?_⟩
    unfold rangeBracket
    by_cases hd : a ≤ d ∧ d ≤ b
    · rw [if_pos hd, decide_eq_true hd]
      unfold matchedBracket
      cases negate <;> rfl
    · rw [if_neg hd, decide_eq_false hd]
      cases negate <;> rfl
  | cons y l =>
    refine ⟨y, l ++ ']' :: q, rfl, ?_⟩
    have hy := (h y List.mem_cons_self).1
    unfold rangeBracket
    by_cases hd : a ≤ d ∧ d ≤ b
    · rw [if_pos hd, decide_eq_true hd, Bool.true_or]
      exact matchedBracket_append (fun c hc => h c (List.mem_cons_of_mem y hc)) hy q
    · rw [if_neg hd, if_neg hy, decide_eq_false hd, Bool.false_or]
      exact hnext y l rfl

theorem inBracket_single {l : List Char} (h : l.head? ≠ some '-' ∨ l.tail = []) :
    inBracket d (c :: l) = (decide (c ≤ d ∧ d ≤ c) || inBracket d l) := by
  have heq : (c ≤ d ∧ d ≤ c) = (c = d) :=
    propext ⟨fun h => Char.le_antisymm h.1 h.2, fun h => h ▸ ⟨Char.le_refl c, Char.le_refl c⟩⟩
  simp only [heq]
  rw [inBracket]
  rintro b l' rfl
  rcases h with h | h
  · exact h rfl
  · cases h

/-- A bracket expression without backslashes, which goes up to the first `]` after its first
character. -/
theorem bracketLoop_append {l : List Char} (hl : ∀ c ∈ l, c ≠ ']' ∧ c ≠ '\\') (hc : c ≠ '\\')
    (hfuel : l.length < fuel) :
    bracketLoop negate d fuel c (l ++ ']' :: q) = verdict negate (inBracket d (c :: l)) q := by
  induction fuel generalizing c l with
  | zero => omega
  | succ fuel ih =>
    unfold bracketLoop
    rw [if_neg hc]
    -- the next turn of the loop, for what is left of the expression
    have hnext : ∀ l₁ : List Char, (∀ c ∈ l₁, c ≠ ']' ∧ c ≠ '\\') → l₁.length ≤ l.length →
        ∀ y l', l₁ = y :: l' → bracketLoop negate d fuel y (l' ++ ']' :: q) =
          verdict negate (inBracket d l₁) q := by
      rintro l₁ hl₁ hlen y l' rfl
      rw [List.length_cons] at hlen
      exact ih (fun c hc => hl₁ c (List.mem_cons_of_mem y hc)) (hl₁ y List.mem_cons_self).2
        (by omega)
    cases l with
    | nil =>
      simp only [List.nil_append]
      rw [if_neg (by simp), inBracket_single (.inr rfl)]
      obtain ⟨y, p, hsplit, hrange⟩ :=
        rangeBracket_append (a := c) (b := c) (d := d) hl (hnext [] hl le_rfl)
      cases hsplit
      exact hrange
    | cons x l =>
      simp only [List.cons_append]
      have htail : ∀ c ∈ l, c ≠ ']' ∧ c ≠ '\\' := fun c hc => hl c (List.mem_cons_of_mem x hc)
      by_cases hx : x = '-' ∧ (l ++ ']' :: q).head? ≠ some ']'
      · rw [if_pos hx]
        obtain ⟨rfl, hhead⟩ := hx
        cases l with
        | nil => simp at hhead
        | cons b l =>
          have hb := (htail b List.mem_cons_self).2
          simp only [List.cons_append]
          rw [if_neg hb]
          obtain ⟨y, p, hsplit, hrange⟩ := rangeBracket_append (a := c) (b := b) (d := d)
            (fun c hc => htail c (List.mem_cons_of_mem b hc))
            (hnext l (fun c hc => htail c (List.mem_cons_of_mem b hc)) (by simp; omega))
          rw [hsplit]
          exact hrange
      · rw [if_neg hx]
        have hplain : (x :: l).head? ≠ some '-' ∨ (x :: l).tail = [] := by
          by_contra hnot
          push Not at hnot
          refine hx ⟨by simpa using hnot.1, ?_⟩
          cases l with
          | nil => exact absurd rfl hnot.2
          | cons b l =>
            have := (htail b List.mem_cons_self).1
            simpa using this
        rw [inBracket_single hplain]
        obtain ⟨y, p, hsplit, hrange⟩ :=
          rangeBracket_append (a := c) (b := c) (d := d) hl (hnext (x :: l) hl le_rfl)
        cases hsplit
        exact hrange

/-- What a bracket expression is made of: a mark of negation or none, and characters up to the
first `]` after the first of them. -/
structure Listed (mark : Option Char) (first : Char) (rest : List Char) : Prop where
  marked : ∀ m ∈ mark, m = '!' ∨ m = '^'
  unmarked : mark = none → first ≠ '!' ∧ first ≠ '^'
  head : first ≠ '\\'
  tail : ∀ c ∈ rest, c ≠ ']' ∧ c ≠ '\\'

/-- The parts of a wildcard pattern. -/
inductive Token
  | any
  | star
  | char (c : Char) (plain : c ≠ '*' ∧ c ≠ '\\' ∧ c ≠ '?' ∧ c ≠ '[')
  | quoted (c : Char)
  | bracket (mark : Option Char) (first : Char) (rest : List Char) (listed : Listed mark first rest)

def Token.text : Token → List Char
  | .any => ['?']
  | .star => ['*']
  | .char c _ => [c]
  | .quoted c => ['\\', c]
  | .bracket mark first rest _ => '[' :: (mark.toList ++ first :: (rest ++ [']']))

/-- The characters that a token stands for. -/
def Token.takes (d : Char) : Token → Bool
  | .any => true
  | .star => true
  | .char c _ => c = d
  | .quoted c => c = d
  | .bracket mark first rest _ => inBracket d (first :: rest) != mark.isSome

/-- An asterisk stands for every string, any other token for one character. -/
def Token.language : Token → Language Char
  | .star => ⊤
  | t => {w | ∃ d, w = [d] ∧ t.takes d}

def text (ts : List Token) : List Char := ts.flatMap Token.text

def language (ts : List Token) : Language Char := (ts.map Token.language).prod

/-- No asterisk among the question marks that a list begins with, nor right behind them. -/
def noStarAhead : List Token → Bool
  | .any :: ts => noStarAhead ts
  | .star :: _ => false
  | _ => true

/-- Between two asterisks stands something else than question marks. -/
def separated : List Token → Bool
  | [] => true
  | .star :: ts => noStarAhead ts && separated ts
  | _ :: ts => separated ts

variable {ts : List Token} {t : Token}

theorem mem_language_nil : n ∈ language [] ↔ n = [] := Language.mem_one n

theorem mem_language_star : n ∈ language (.star :: ts) ↔ ∃ m, m <:+ n ∧ m ∈ language ts := by
  unfold language
  rw [List.map_cons, List.prod_cons, Language.mem_mul]
  constructor
  · rintro ⟨x, -, m, hm, rfl⟩
    exact ⟨m, List.suffix_append x m, hm⟩
  · rintro ⟨m, ⟨x, rfl⟩, hm⟩
    exact ⟨x, trivial, m, hm, rfl⟩

theorem mem_language_single (ht : t ≠ .star) :
    n ∈ language (t :: ts) ↔ ∃ d m, n = d :: m ∧ t.takes d ∧ m ∈ language ts := by
  have hlang : t.language = {w | ∃ d, w = [d] ∧ t.takes d} := by
    cases t <;> first | rfl | exact absurd rfl ht
  unfold language
  rw [List.map_cons, List.prod_cons, Language.mem_mul, hlang]
  constructor
  · rintro ⟨x, ⟨d, rfl, hd⟩, m, hm, rfl⟩
    exact ⟨d, m, rfl, hd, hm⟩
  · rintro ⟨d, m, rfl, hd, hm⟩
    exact ⟨[d], ⟨d, rfl, hd⟩, m, hm, rfl⟩

theorem bracket_listed {mark : Option Char} {first : Char} {rest : List Char}
    (h : Listed mark first rest) (d : Char) (p : List Char) :
    bracket d (mark.toList ++ first :: (rest ++ ']' :: p)) =
      verdict mark.isSome (inBracket d (first :: rest)) p := by
  have hloop : ∀ negate, bracketLoop negate d ((rest ++ ']' :: p).length + 1) first
      (rest ++ ']' :: p) = verdict negate (inBracket d (first :: rest)) p := fun negate =>
    bracketLoop_append h.tail h.head (by
      rw [List.length_append, List.length_cons]
      omega)
  unfold bracket
  cases mark with
  | none =>
    obtain ⟨hbang, hcaret⟩ := h.unmarked rfl
    simp only [Option.toList_none, List.nil_append, List.head?_cons, Option.some.injEq, hbang,
      hcaret, or_self, decide_false, Bool.false_eq_true, if_false]
    exact hloop false
  | some m =>
    have hm := h.marked m rfl
    simp only [Option.toList_some, List.singleton_append, List.head?_cons, Option.some.injEq, hm,
      decide_true, if_true, List.tail_cons]
    exact hloop true

/-- The loop takes a token that is no asterisk, and a character for it. -/
theorem fnmatchLoop_single (ht : t ≠ .star) (p n : List Char) :
    fnmatchLoop (fuel + 1) (t.text ++ p) n =
      match n with
      | [] => some false
      | d :: n => if t.takes d then fnmatchLoop fuel p n else some false := by
  cases t with
  | star => exact absurd rfl ht
  | any => cases n <;> rfl
  | char c plain =>
    obtain ⟨hstar, hquote, hany, hbracket⟩ := plain
    show fnmatchLoop (fuel + 1) (c :: p) n = _
    rw [fnmatchLoop.eq_def]
    dsimp only
    rw [if_neg hstar, if_neg hquote]
    cases n with
    | nil => rfl
    | cons d n =>
      dsimp only [Token.takes]
      rw [if_neg hany, if_neg hbracket]
      simp only [decide_eq_true_eq]
  | quoted c =>
    show fnmatchLoop (fuel + 1) ('\\' :: c :: p) n = _
    rw [fnmatchLoop.eq_def]
    dsimp only
    rw [if_neg (by decide), if_pos rfl]
    cases n with
    | nil => rfl
    | cons d n =>
      simp only [Token.takes, decide_eq_true_eq]
      exact if_congr eq_comm rfl rfl
  | bracket mark first rest listed =>
    show fnmatchLoop (fuel + 1) ('[' :: ((mark.toList ++ first :: (rest ++ [']'])) ++ p)) n = _
    have hshape : (mark.toList ++ first :: (rest ++ [']'])) ++ p =
        mark.toList ++ first :: (rest ++ ']' :: p) := by
      simp
    rw [hshape, fnmatchLoop.eq_def]
    dsimp only
    rw [if_neg (by decide), if_neg (by decide)]
    cases n with
    | nil => rfl
    | cons d n =>
      dsimp only
      rw [if_neg (by decide), if_pos rfl, bracket_listed listed]
      have htakes : (Token.bracket mark first rest listed).takes d =
          (inBracket d (first :: rest) != mark.isSome) := rfl
      rw [verdict, htakes]
      by_cases hit : inBracket d (first :: rest) = mark.isSome
      · rw [if_pos hit, hit, bne_self_eq_false]
        rfl
      · rw [if_neg hit, bne_iff_ne.mpr hit]
        rfl

/-- The first character of a token that is no asterisk and no question mark. -/
theorem head_text (ht : t ≠ .star) (hany : t ≠ .any) :
    ∃ c p, t.text = c :: p ∧ c ≠ '*' ∧ c ≠ '?' ∧
      ∀ q d, t.takes d → c = '[' ∨ (if c = '\\' then (p ++ q).head? else some c) = some d := by
  cases t with
  | star => exact absurd rfl ht
  | any => exact absurd rfl hany
  | char c plain =>
    refine ⟨c, [], rfl, plain.1, plain.2.2.1, fun q d hd => .inr ?_⟩
    rw [if_neg plain.2.1]
    exact congrArg some (of_decide_eq_true hd)
  | quoted c =>
    refine ⟨'\\', [c], rfl, by decide, by decide, fun q d hd => .inr ?_⟩
    exact congrArg some (of_decide_eq_true hd)
  | bracket mark first rest listed =>
    exact ⟨'[', _, rfl, by decide, by decide, fun q d hd => .inl rfl⟩

/-- The loop after an asterisk finds a place where the rest matches, if there is one. -/
theorem starLoop_spec {test : Char → Bool} {rest : List Char → Option Bool} {P : List Char → Prop}
    (hrest : ∀ m, ∃ b, rest m = some b ∧ (b = true ↔ P m))
    (htest : ∀ d m, P (d :: m) → test d) (hnil : ¬ P []) (n : List Char) :
    ∃ b, starLoop test rest n = some b ∧ (b = true ↔ ∃ m, m <:+ n ∧ P m) := by
  induction n with
  | nil =>
    refine ⟨false, rfl, ?_⟩
    simp [hnil]
  | cons d n ih =>
    obtain ⟨b, hb, hiff⟩ := ih
    have hsplit : (∃ m, m <:+ d :: n ∧ P m) ↔ P (d :: n) ∨ ∃ m, m <:+ n ∧ P m := by
      constructor
      · rintro ⟨m, hm, hp⟩
        rcases List.suffix_cons_iff.mp hm with rfl | hm
        · exact .inl hp
        · exact .inr ⟨m, hm, hp⟩
      · rintro (hp | ⟨m, hm, hp⟩)
        · exact ⟨_, List.suffix_refl _, hp⟩
        · exact ⟨m, hm.trans (List.suffix_cons d n), hp⟩
    rw [hsplit]
    unfold starLoop
    by_cases hd : test d
    · rw [if_pos hd]
      obtain ⟨b', hb', hiff'⟩ := hrest (d :: n)
      rw [hb']
      cases b' with
      | true => exact ⟨true, rfl, by simp [hiff'.mp rfl]⟩
      | false =>
        refine ⟨b, hb, ?_⟩
        rw [hiff]
        have hnot : ¬ P (d :: n) := fun hp => by cases hiff'.mpr hp
        simp [hnot]
    · rw [if_neg hd]
      refine ⟨b, hb, ?_⟩
      rw [hiff]
      have hnot : ¬ P (d :: n) := fun hp => hd (htest d n hp)
      simp [hnot]

theorem language_nonempty (ht : t ≠ .star) : [] ∉ language (t :: ts) := by
  rw [mem_language_single ht]
  rintro ⟨d, m, h, -⟩
  cases h

/-- A question mark behind an asterisk may as well stand before it. -/
theorem mem_language_star_any :
    n ∈ language (.star :: .any :: ts) ↔ ∃ d m, n = d :: m ∧ m ∈ language (.star :: ts) := by
  simp only [mem_language_star, mem_language_single (t := .any) (by simp), Token.takes]
  constructor
  · rintro ⟨_, hsuffix, d, m, rfl, -, hm⟩
    cases n with
    | nil => exact absurd hsuffix.length_le (by simp)
    | cons e n =>
      refine ⟨e, n, rfl, m, ?_, hm⟩
      rcases List.suffix_cons_iff.mp hsuffix with h | h
      · rw [(List.cons.inj h).2]
      · exact (List.suffix_cons d m).trans h
  · rintro ⟨e, n, rfl, m, ⟨x, rfl⟩, hm⟩
    -- the character before the rest, which is the first one where the asterisk takes none
    rcases List.eq_nil_or_concat x with rfl | ⟨x, d, rfl⟩
    · exact ⟨e :: m, List.suffix_refl _, e, m, rfl, trivial, hm⟩
    · exact ⟨d :: m, ⟨e :: x, by simp⟩, d, m, rfl, trivial, hm⟩

/-- The case of `*`, the rest of the pattern being matched as its language says. -/
theorem star_spec {rest : List Char → List Char → Option Bool} (ht : t ≠ .star) (hany : t ≠ .any)
    (hrest : ∀ n, ∃ b, rest (text (t :: ts)) n = some b ∧ (b = true ↔ n ∈ language (t :: ts)))
    (n : List Char) :
    ∃ b, star rest (text (t :: ts)) (some n) = some b ∧
      (b = true ↔ n ∈ language (.star :: t :: ts)) := by
  obtain ⟨c, p, htext, hstar, hquestion, htest⟩ := head_text ht hany
  have hsplit : text (t :: ts) = c :: (p ++ text ts) := by
    rw [text, List.flatMap_cons, htext]
    rfl
  rw [hsplit] at hrest ⊢
  rw [star.eq_def]
  dsimp only
  rw [if_neg hstar, if_neg hquestion, mem_language_star]
  refine starLoop_spec hrest (fun d m hm => ?_) (language_nonempty ht) n
  obtain ⟨_, _, heq, htakes, -⟩ := (mem_language_single ht).mp hm
  obtain ⟨rfl, rfl⟩ := List.cons.inj heq
  exact decide_eq_true (htest (text ts) d htakes)

/-- The pattern of a list of tokens is matched as its language says. -/
theorem fnmatchLoop_text (hs : separated ts) (hfuel : (text ts).length < fuel) :
    (∀ n, ∃ b, fnmatchLoop fuel (text ts) n = some b ∧ (b = true ↔ n ∈ language ts)) ∧
      (noStarAhead ts → ∀ n, ∃ b, star (fnmatchLoop fuel) (text ts) (some n) = some b ∧
        (b = true ↔ n ∈ language (.star :: ts))) := by
  induction ts generalizing fuel with
  | nil =>
    cases fuel with
    | zero => omega
    | succ fuel =>
      refine ⟨fun n => ⟨n.isEmpty, rfl, ?_⟩, fun _ n => ⟨true, rfl, ?_⟩⟩
      · rw [mem_language_nil, List.isEmpty_iff]
      · simp only [mem_language_star, mem_language_nil, true_iff]
        exact ⟨[], List.nil_suffix, rfl⟩
  | cons t ts ih =>
    have htext : text (t :: ts) = t.text ++ text ts := List.flatMap_cons ..
    have htail : separated ts := by
      cases t <;> simp_all [separated]
    have hpos : 0 < t.text.length := by
      cases t <;> simp [Token.text]
    rw [htext, List.length_append] at hfuel
    have hloop : ∀ n, ∃ b, fnmatchLoop fuel (text (t :: ts)) n = some b ∧
        (b = true ↔ n ∈ language (t :: ts)) := by
      intro n
      obtain ⟨fuel, rfl⟩ : ∃ k, fuel = k + 1 := ⟨fuel - 1, by omega⟩
      have hlt : (text ts).length < fuel := by omega
      obtain ⟨hplain, hstar⟩ := ih htail hlt
      by_cases ht : t = .star
      · subst ht
        have hahead : noStarAhead ts := by
          rw [separated, Bool.and_eq_true] at hs
          exact hs.1
        obtain ⟨b, hb, hiff⟩ := hstar hahead n
        refine ⟨b, ?_, hiff⟩
        rw [htext, ← hb, Token.text, List.singleton_append, fnmatchLoop.eq_def]
        exact if_pos rfl
      · rw [htext, fnmatchLoop_single ht]
        simp only [mem_language_single ht]
        cases n with
        | nil => exact ⟨false, rfl, by simp⟩
        | cons d n =>
          dsimp only
          by_cases hd : t.takes d
          · obtain ⟨b, hb, hiff⟩ := hplain n
            rw [if_pos hd]
            exact ⟨b, hb, by simp [hiff, hd]⟩
          · rw [if_neg hd]
            exact ⟨false, rfl, by simp [hd]⟩
    refine ⟨hloop, fun hahead n => ?_⟩
    by_cases hany : t = .any
    · subst hany
      have hlt : (text ts).length < fuel := by omega
      obtain ⟨-, hstar⟩ := ih htail hlt
      rw [mem_language_star_any]
      cases n with
      | nil => exact ⟨false, rfl, by simp⟩
      | cons d n =>
        obtain ⟨b, hb, hiff⟩ := hstar hahead n
        exact ⟨b, hb, by simp [hiff]⟩
    · have ht : t ≠ .star := by
        rintro rfl
        cases hahead
      exact star_spec ht hany hloop n

theorem listed_not_range : Listed (some '!') 'a' ['-', 'c'] where
  marked := by simp
  unmarked := by simp
  head := by decide
  tail := by simp

theorem length_skipBracket {escaped : Bool} (h : skipBracket escaped p = .rest q) :
    q.length ≤ p.length := by
  induction p generalizing escaped with
  | nil => cases escaped <;> cases h
  | cons c p ih =>
    rw [List.length_cons]
    cases escaped with
    | true => exact (ih h).trans (Nat.le_succ _)
    | false =>
      rw [skipBracket] at h
      split at h
      · cases h
        exact Nat.le_succ _
      · exact (ih h).trans (Nat.le_succ _)

theorem length_matchedBracket (h : matchedBracket negate c p = .rest q) : q.length ≤ p.length := by
  have hskip : ∀ r, (if c = ']' then .rest p else skipBracket false p) = Bracket.rest r →
      r.length ≤ p.length := by
    intro r hr
    split at hr
    · cases hr
      exact le_rfl
    · exact length_skipBracket hr
  unfold matchedBracket at h
  split at h
  · rename_i r hr
    split at h
    · cases h
    · cases h
      exact hskip _ hr
  · rename_i hnot
    exact absurd h (hnot q)

theorem length_rangeBracket {next : Char → List Char → Bracket}
    (hnext : next c p = .rest q → q.length ≤ p.length)
    (h : rangeBracket negate d a b c p next = .rest q) : q.length ≤ p.length := by
  unfold rangeBracket at h
  split at h
  · exact length_matchedBracket h
  · split at h
    · split at h
      · cases h
        exact le_rfl
      · cases h
    · exact hnext h

theorem length_unescaped (c : Char) (p : List Char) :
    (if c = '\\' then p else c :: p).length ≤ p.length + 1 := by
  split
  · exact Nat.le_succ _
  · exact le_rfl

theorem length_bracketLoop (h : bracketLoop negate d fuel c p = .rest q) :
    q.length ≤ p.length := by
  induction fuel generalizing c p with
  | zero => cases h
  | succ fuel ih =>
    rw [bracketLoop.eq_def] at h
    dsimp only at h
    split at h
    · cases h
    · cases h
    · rename_i cstart x r hsplit
      have hlen : r.length + 1 ≤ p.length := by
        have := length_unescaped c p
        rw [hsplit] at this
        simpa using this
      split at h
      · split at h
        · cases h
        · rename_i cend s hs
          split at h
          · cases h
          · cases h
          · rename_i e y s' hsplit'
            have hlen' : s'.length + 1 ≤ s.length := by
              have := length_unescaped cend s
              rw [hsplit'] at this
              simpa using this
            have := length_rangeBracket ih h
            simp at hlen
            omega
      · have := length_rangeBracket ih h
        omega

theorem length_bracket (h : bracket d p = .rest q) : q.length ≤ p.length := by
  unfold bracket at h
  dsimp only at h
  split at h
  · cases h
  · rename_i c r hsplit
    have hlen : r.length + 1 ≤ p.length := by
      rw [← List.length_cons (a := c), ← hsplit]
      split
      · exact (List.length_tail ..).trans_le (Nat.sub_le _ _)
      · exact le_rfl
    have := length_bracketLoop h
    omega

theorem star_congr {rest rest' : List Char → List Char → Option Bool}
    (h : ∀ q : List Char, q.length ≤ p.length → rest q = rest' q) (n : Option (List Char)) :
    star rest p n = star rest' p n := by
  induction p generalizing n with
  | nil => rfl
  | cons c p ih =>
    have ih := fun n => ih (fun q hq => h q (hq.trans (Nat.le_succ _))) n
    rw [star.eq_def, star.eq_def rest']
    dsimp only
    rw [h (c :: p) le_rfl]
    simp only [ih]

/-- The loop does not run out of fuel. -/
theorem fnmatchLoop_fuel (h : p.length < fuel) (n : List Char) :
    fnmatchLoop (fuel + 1) p n = fnmatchLoop fuel p n := by
  induction fuel generalizing p n with
  | zero => omega
  | succ fuel ih =>
    cases p with
    | nil => rfl
    | cons c p =>
      rw [List.length_cons] at h
      have hrest : ∀ q : List Char, q.length ≤ p.length →
          fnmatchLoop (fuel + 1) q = fnmatchLoop fuel q := fun q hq =>
        funext fun n => ih (by omega) n
      rw [fnmatchLoop.eq_def, fnmatchLoop.eq_def (fuel + 1)]
      dsimp only
      rw [star_congr hrest, hrest p le_rfl]
      split
      · rfl
      · split
        · split
          · rfl
          · rw [hrest _ (by simp)]
          · rfl
        · split
          · rfl
          · split
            · rfl
            · split
              · split
                · rfl
                · rfl
                · rename_i hb
                  rw [hrest _ (length_bracket hb)]
              · rfl

/-- `fnmatch` is what the walkers of the linker rely on. -/
theorem posixFnmatch : PosixFnmatch fun p n => fnmatch p n == some true where
  nil n := by cases n <;> rfl
  star n := rfl
  ordinary c p hquote hwild := by
    obtain ⟨hany, hstar, hbracket⟩ : c ≠ '?' ∧ c ≠ '*' ∧ c ≠ '[' := by
      simpa [isWild, and_assoc] using hwild
    refine ⟨?_, fun d n => ?_⟩
    · rw [fnmatch, fnmatchLoop.eq_def]
      dsimp only
      rw [if_neg hstar, if_neg hquote]
      rfl
    · rw [fnmatch, fnmatchLoop.eq_def]
      dsimp only
      rw [if_neg hstar, if_neg hquote, if_neg hany, if_neg hbracket]
      by_cases hd : c = d
      · rw [if_pos hd, beq_iff_eq.mpr hd]
        rfl
      · rw [if_neg hd, beq_eq_false_iff_ne.mpr hd]
        rfl
  escaped c p := by
    refine ⟨rfl, fun d n => ?_⟩
    rw [fnmatch, fnmatchLoop.eq_def]
    dsimp only
    rw [if_neg (by decide), if_pos rfl]
    by_cases hd : d = c
    · rw [if_pos hd, beq_iff_eq.mpr hd.symm, List.length_cons, List.length_cons,
        fnmatchLoop_fuel (Nat.lt_succ_self _)]
      rfl
    · rw [if_neg hd, beq_eq_false_iff_ne.mpr (Ne.symm hd)]
      rfl

end FusionBinutils.Ld.Fnmatch
