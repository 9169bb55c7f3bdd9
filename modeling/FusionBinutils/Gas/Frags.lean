import FusionBinutils.Opcode.Encoding

/-! Frags and their relaxation (gas/write.c, gas/read.c). Addresses and sizes are 64-bit words;
`none` stands for a trap: a division by zero, a missing next frag or symbol, or `as_fatal`. -/
namespace FusionBinutils.Gas

/-- `relax_stateT`, for the kinds that every port has. -/
inductive RsType where
  | fill | align | alignCode | alignTest | org | space | leb128
  deriving DecidableEq, Repr

def RsType.isAlign : RsType → Bool
  | .align | .alignCode | .alignTest => true
  | _ => false

/-- `struct frag`. Symbols find a frag by `id`; a copied frag keeps the number of its original,
which stands before it in the chain. -/
structure Frag (σ : Type) where
  id : Nat
  frType : RsType
  frAddress : Vma
  lastFrAddress : Vma
  frFix : Vma
  frVar : Vma
  frOffset : Vma
  frSubtype : BitVec 32
  frSymbol : Option σ
  frLiteral : Nat → BfdByte

/-- The address of every frag that a symbol may refer to. -/
abbrev Layout := Nat → Vma

/-- Symbols while frags move: the value is a function of the layout. -/
structure SymEnv (σ : Type) where
  value : σ → Layout → Vma
  /-- in the absolute section, defined and not common -/
  isAbsolute : σ → Bool

/-- A message of `as_bad_where` or `as_warn_where`. -/
inductive Msg where
  | bad (text : String)
  | warn (text : String)
  deriving DecidableEq, Repr

def Msg.isBad : Msg → Bool
  | .bad _ => true
  | .warn _ => false

variable {σ : Type}

/-! LEB128 numbers. A 64-bit value has ten groups of seven bits. -/

def sizeofUleb128 : Nat → Vma → Nat
  | 0, _ => 0
  | n + 1, value => if value >>> 7 = 0 then 1 else sizeofUleb128 n (value >>> 7) + 1

/-- The last byte of a signed number: the rest is its sign. -/
def sleb128Ends (byte value : Vma) : Bool :=
  (value == 0 && byte &&& 0x40#64 == 0) || (value == -1 && byte &&& 0x40#64 != 0)

def sizeofSleb128 : Nat → Vma → Nat
  | 0, _ => 0
  | n + 1, value =>
    if sleb128Ends (value &&& 0x7f#64) (value.sshiftRight 7) then 1
    else sizeofSleb128 n (value.sshiftRight 7) + 1

def sizeofLeb128 (value : Vma) (sign : Bool) : Nat :=
  if sign then sizeofSleb128 10 value else sizeofUleb128 10 value

def outputUleb128 : Nat → Vma → List BfdByte
  | 0, _ => []
  | n + 1, value =>
    let byte := (value &&& 0x7f#64).setWidth 8
    if value >>> 7 = 0 then [byte] else (byte ||| 0x80#8) :: outputUleb128 n (value >>> 7)

def outputSleb128 : Nat → Vma → List BfdByte
  | 0, _ => []
  | n + 1, value =>
    let byte := value &&& 0x7f#64
    if sleb128Ends byte (value.sshiftRight 7) then [byte.setWidth 8]
    else (byte.setWidth 8 ||| 0x80#8) :: outputSleb128 n (value.sshiftRight 7)

def outputLeb128 (value : Vma) (sign : Bool) : List BfdByte :=
  if sign then outputSleb128 10 value else outputUleb128 10 value

/-! One frag. -/

/-- `relax_align`. -/
def relaxAlign (address : Vma) (alignment : Nat) : Vma :=
  let mask := ~~~((-1 : Vma) <<< alignment)
  ((address + mask) &&& ~~~mask) - address

/-- The padding of an alignment frag whose variable part starts at `address`, with the maximum
that its subtype sets. -/
def Frag.alignPad (f : Frag σ) (address : Vma) : Vma :=
  let offset := relaxAlign address f.frOffset.toNat
  if f.frSubtype ≠ 0 ∧ f.frSubtype.setWidth 64 < offset then 0 else offset

def paddingMsg (offset var : Vma) : Msg :=
  .bad ("alignment padding (" ++ toString offset.toNat ++ " bytes) not a multiple of " ++
    toString var.toInt)

/-- The first guess at the size of the variable part, and what the guess changes in the frag. -/
def guessFrag (f : Frag σ) (address : Vma) : Option (Frag σ × Vma × List Msg) :=
  match f.frType with
  | .fill => some (f, f.frOffset * f.frVar, [])
  | .align | .alignCode | .alignTest =>
    if f.frVar = 0 then none
    else
      let offset := f.alignPad address
      if offset % f.frVar ≠ 0 then
        some (f, offset - offset % f.frVar, [paddingMsg offset f.frVar])
      else some (f, offset, [])
  -- an org is taken to be without effect; it grows in the first pass
  | .org | .space => some (f, 0, [])
  | .leb128 => some ({ f with frOffset := 1 }, 1, [])

/-- The fill frag put behind an alignment that keeps bouncing with a leb128. -/
def paddingFrag (f : Frag σ) (address : Vma) : Frag σ :=
  let size := (1 : Vma) <<< f.frOffset.toNat
  let offset := size.sdiv f.frVar
  { f with
    frType := .fill
    frAddress := address
    frFix := 0
    frOffset := if offset * f.frVar = size then offset else size
    frVar := if offset * f.frVar = size then f.frVar else 1
    frLiteral := fun i => f.frLiteral (f.frFix.toNat + i) }

/-- What a pass makes of one frag. -/
structure Grown (σ : Type) where
  frag : Frag σ
  newf : Option (Frag σ)
  growth : Vma
  ret : Bool
  msgs : List Msg

def Frag.moveBy (f : Frag σ) (stretch : Vma) : Frag σ :=
  { f with frAddress := f.frAddress + stretch }

/-- The frags that take the place of one. The pass goes on with the new frag, a fill, which only
moves. -/
def Grown.moved (g : Grown σ) (stretch : Vma) : List (Frag σ) :=
  g.frag :: (g.newf.map (·.moveBy stretch)).toList

/-- The growth of an alignment. One that shrinks behind a bouncing leb128 gets a frag of padding
behind it, whose size counts as growth. -/
def relaxAlignFrag (fudge : Nat) (stretch was : Vma) (f : Frag σ) : Grown σ :=
  let oldoff := f.alignPad (was + f.frFix)
  let newoff := f.alignPad (f.frAddress + f.frFix)
  let growth := newoff - oldoff
  if growth.toInt < 0 ∧ fudge &&& 16 ≠ 0 ∧ 2 ≤ fudge &&& 15 then
    let newf := paddingFrag f (f.frAddress + f.frFix + newoff)
    let growth := growth + newf.frOffset * newf.frVar
    -- the new frag gets the stretch back when the pass comes to it
    ⟨f, some { newf with frAddress := newf.frAddress - (stretch + growth) }, growth, false, []⟩
  else ⟨f, none, growth, false, []⟩

/-- The address that an `.org` asks for. -/
def Frag.orgTarget (env : SymEnv σ) (lay : Layout) (f : Frag σ) : Vma :=
  f.frOffset + (f.frSymbol.map (env.value · lay)).getD 0

/-- The size of a leb128 number, the value of a symbol. -/
def Frag.leb128Size (env : SymEnv σ) (lay : Layout) (f : Frag σ) (s : σ) : Vma :=
  BitVec.ofNat 64 (sizeofLeb128 (env.value s lay) (f.frSubtype ≠ 0))

/-- The switch of the relaxation pass. The frag has its new address; `was` is the one before. -/
def relaxFrag (env : SymEnv σ) (lay : Layout) (pass fudge : Nat) (stretch was : Vma)
    (f : Frag σ) (next : Option (Frag σ)) : Option (Grown σ) :=
  match f.frType with
  | .fill => some ⟨f, none, 0, false, []⟩
  | .align | .alignCode | .alignTest => some (relaxAlignFrag fudge stretch was f)
  | .org => do
    let next ← next
    let target := f.orgTarget env lay
    let after := next.frAddress + stretch
    if target < f.frAddress + f.frFix then
      if pass < 2 then some ⟨f, none, 0, true, []⟩
      else
        some ⟨{ f with
            frType := .align, frSubtype := 0, frOffset := 0, frFix := after - f.frAddress },
          none, 0, false, [.bad "attempt to move .org backwards"]⟩
    else some ⟨f, none, target - after, false, []⟩
  | .space =>
    match f.frSymbol with
    | none => some ⟨f, none, 0, false, []⟩
    | some s =>
      let amount := env.value s lay
      if ¬ env.isAbsolute s then
        some ⟨{ f with frSymbol := none }, none, 0, false,
          [.bad ".space specifies non-absolute value"]⟩
      else if amount.toInt < 0 then
        if pass < 2 then some ⟨f, none, 0, true, []⟩
        else
          some ⟨{ f with frSymbol := none }, none, 0, false,
            [.warn ".space or .fill with negative value, ignored"]⟩
      else do
        let next ← next
        some ⟨f, none, was + f.frFix + amount - next.frAddress, false, []⟩
  | .leb128 => do
    let s ← f.frSymbol
    let size := f.leb128Size env lay s
    some ⟨{ f with frOffset := size }, none, size - f.frOffset, false, []⟩

/-! A chain of frags. -/

/-- The address of a frag in a chain. -/
def lookupAddr (chain : List (Frag σ)) (id : Nat) : Option Vma :=
  (chain.find? (·.id == id)).map Frag.frAddress

/-- `stretch`, `stretched`, `rs_leb128_fudge` and `ret` of `relax_segment`. -/
structure PassState where
  stretch : Vma
  stretched : Bool
  fudge : Nat
  ret : Bool

/-- The bookkeeping after one frag. -/
def PassState.grow (st : PassState) (frType : RsType) (growth : Vma) (ret : Bool) : PassState :=
  if growth ≠ 0 then
    let stretch := st.stretch + growth
    { stretch := stretch
      stretched := true
      fudge :=
        if frType = .leb128 then st.fudge + 16
        else if frType = .align ∧ st.fudge &&& 16 ≠ 0 ∧ stretch = 0 then st.fudge + 16
        else 0
      ret := st.ret || ret }
  else { st with ret := st.ret || ret }

/-- The first guess at the addresses. -/
def guessAddresses : Vma → List (Frag σ) → Option (List (Frag σ) × List Msg)
  | _, [] => some ([], [])
  | address, f :: rest => do
    let (f, size, msgs) ← guessFrag { f with frAddress := address } (address + f.frFix)
    let (rest, msgs') ← guessAddresses (address + f.frFix + size) rest
    return (f :: rest, msgs ++ msgs')

/-- One pass over the frags. `ctx` completes the addresses of this chain to a layout, and `done`
holds the frags that the pass has left behind. -/
def relaxFrags (env : SymEnv σ) (ctx : (Nat → Option Vma) → Layout) (pass : Nat) :
    List (Frag σ) → PassState → List (Frag σ) → Option (List (Frag σ) × PassState × List Msg)
  | _, st, [] => some ([], st, [])
  | done, st, f :: rest => do
    let f' := f.moveBy st.stretch
    let lay := ctx (lookupAddr (done ++ f' :: rest))
    let g ← relaxFrag env lay pass st.fudge st.stretch f.frAddress f' rest.head?
    let st := st.grow g.frag.frType g.growth g.ret
    let moved := g.moved st.stretch
    let (rest, st, msgs) ← relaxFrags env ctx pass (done ++ moved) st rest
    return (moved ++ rest, st, g.msgs ++ msgs)

/-- The state of the leb128 state machine between two passes. -/
def nextFudge (st : PassState) : Nat :=
  if st.stretch = 0 ∧ st.fudge &&& 16 = 0 ∧ 16 ≤ st.fudge then st.fudge + 1 else 0

/-- The passes of `relax_segment`, at most `n + 1` of them. -/
def relaxLoop (env : SymEnv σ) (ctx : (Nat → Option Vma) → Layout) (pass : Nat) :
    Nat → Nat → Bool → List (Frag σ) → Option (List (Frag σ) × Bool × List Msg)
  | n, fudge, ret, chain => do
    let (chain, st, msgs) ← relaxFrags env ctx pass [] ⟨0, false, fudge, ret⟩ chain
    if st.stretched then
      match n with
      | 0 => none
      | n + 1 =>
        let (chain, ret, msgs') ← relaxLoop env ctx pass n (nextFudge st) st.ret chain
        return (chain, ret, msgs ++ msgs')
    else return (chain, st.ret, msgs)

/-- The bound on the number of passes, as an `unsigned long`. -/
def maxIterations (fragCount : Nat) : Nat :=
  let n := fragCount * fragCount % 2 ^ 64
  if n < fragCount then fragCount else n

/-- The comparison with the addresses of the last call. -/
def rememberAddress (f : Frag σ) : Frag σ := { f with lastFrAddress := f.frAddress }

/-- `relax_segment`. -/
def relaxSegment (env : SymEnv σ) (ctx : (Nat → Option Vma) → Layout) (pass : Nat)
    (chain : List (Frag σ)) : Option (List (Frag σ) × Bool × List Msg) := do
  let (chain, msgs) ← guessAddresses 0 chain
  let (chain, ret, msgs') ←
    relaxLoop env ctx pass (maxIterations chain.length - 1) 0 false chain
  let moved := chain.any fun f => f.lastFrAddress != f.frAddress
  return (chain.map rememberAddress, ret || moved, msgs ++ msgs')

end FusionBinutils.Gas
