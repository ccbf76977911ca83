import Avr.Lowering.Asm
import Avr.Lowering.Assign
import Avr.Lowering.DataRow

namespace Avr

mutual

/-- Blocks of nothing but empty blocks. -/
def Stmt.isEmpty (st : Stmt) : Bool :=
  match st with
  | .block body => areEmpty body
  | _ => false
termination_by structural st

def areEmpty (body : List (Located Stmt)) : Bool :=
  match body with
  | [] => true
  | ⟨_, st⟩ :: rest => st.isEmpty && areEmpty rest
termination_by structural body

end

mutual

/-- Holds a `continue` of the loop that the statement stands in. -/
def Stmt.continues (st : Stmt) : Bool :=
  match st with
  | .again => true
  | .branch _ ⟨_, yes⟩ none => yes.continues
  | .branch _ ⟨_, yes⟩ (some ⟨_, no⟩) => yes.continues || no.continues
  | .block body | .saveRegs _ body => anyContinues body
  | _ => false
termination_by structural st

def anyContinues (body : List (Located Stmt)) : Bool :=
  match body with
  | [] => false
  | ⟨_, st⟩ :: rest => st.continues || anyContinues rest
termination_by structural body

end

namespace Stmt

def isShortAsm : Stmt → Bool
  | asm i => (Mnemonic.ofName? i.mnemonic.value).any (·.size = 2)
  | _ => false

/-- Statements that may turn out as a single word. -/
def isSkippable : Stmt → Bool
  | expr (.assign _ _ ⟨_, .binary ..⟩) => false
  | expr (.assign ..) | expr (.unary (.step _) _) | expr (.suffix ..) => true
  | st => st.isShortAsm

/-- The instruction that skips the statement unless the condition holds. -/
def skip? (body : Stmt) : Value → Option (Mnemonic × Operand × Operand)
  | .regBit r bit => skipReg .sbrc r bit
  | .unary .not (.regBit r bit) => skipReg .sbrs r bit
  | .ioBit address bit => skipIo .sbic address bit
  | .unary .not (.ioBit address bit) => skipIo .sbis address bit
  | .binary (.rel .ne) (.reg l) (.reg r) =>
    if body.isShortAsm then some (.cpse, .reg l, .reg r) else none
  | _ => none
where
  skipReg (m : Mnemonic) (r : Reg) (bit : Nat) : Option (Mnemonic × Operand × Operand) :=
    if body.isSkippable then some (m, .reg r, .number (Int32.ofNat bit)) else none
  skipIo (m : Mnemonic) (address bit : Nat) : Option (Mnemonic × Operand × Operand) :=
    if address ≤ Device.lowIoEnd && body.isSkippable then
      some (m, .number (Int32.ofNat address), .number (Int32.ofNat bit))
    else none

end Stmt

/-- What decides whether a loop goes round again. -/
inductive Counter
  | reg (r : Reg)
  | pair (p : Pair)
  /-- Goes round while the bit is set, or while it is clear. -/
  | ioBit (port bit : Nat) (negated : Bool)

namespace Counter

def wordPair? (rs : List Reg) : Option Pair := (Pair.ofList? rs).filter Pair.isWord

def ofValue (l : Location) : Value → Trace Counter
  | .reg r => pure (reg r)
  | .group rs => do return pair (← Trace.get l .registerExpected (wordPair? rs))
  | .ioBit port bit =>
    if port ≤ Device.lowIoEnd then pure (ioBit port bit false) else .fail l .lowAddressExpected
  | .unary .not (.ioBit port bit) =>
    if port ≤ Device.lowIoEnd then pure (ioBit port bit true) else .fail l .loopForm
  | _ => .fail l .loopForm

/-- How often a counter that starts at zero goes round. -/
def limit? : Value → Option Int32
  | .reg _ => some 0x100
  | .group rs => (wordPair? rs).map fun _ => 0x10000
  | _ => none

/-- Steps the counter and jumps back, unless the loop is done. -/
def update (start : LabelRef) : Counter → Selection
  | reg r => Selection.sequence [Selection.onReg .dec r, Selection.jumpTo .brne start]
  | pair p =>
    Selection.sequence [Selection.emit .sbiw [.pair p, .number 1], Selection.jumpTo .brne start]
  | ioBit port bit negated =>
    Selection.sequence
      [Selection.emit (if negated then .sbis else .sbic)
        [.number (Int32.ofNat port), .number (Int32.ofNat bit)],
       Selection.jumpTo .rjmp start]

end Counter

namespace Scope

/-- Adds an alias to the innermost scope. -/
def use (s : Scope) (a : Alias) : Lowering Unit := do
  let name := a.name.value
  let st ← get
  Trace.require a.name.location (.localAliasDefined name) (st.aliases.lookup name).isNone
  set { st with aliases := (name, a.target) :: st.aliases }
  if (s.globals.aliases.lookup name).isSome then
    Trace.warn a.name.location (.nameShadowed name)

/-- The full turn is counted by starting at zero. -/
def counterStart (l : Location) (limit k : Int32) : Trace Int32 :=
  if k = limit then pure 0 else if 0 ≤ k ∧ k < limit then pure k else .fail l .valueTooBig

/-- Sets the counter of a loop up. -/
def counter (s : Scope) (condition : Located Expr) : Lowering Counter := do
  let l := condition.location
  match condition.value with
  | .assign .set target value =>
    let v ← s.resolve target
    let k ← s.constant value
    let limit ← Trace.get target.location .registerExpected (Counter.limit? v)
    s.place l (Selection.assign v (.const (← counterStart value.location limit k)))
    Counter.ofValue l v
  | _ => Counter.ofValue l (← s.resolve condition)

def savedRegisters (s : Scope) (e : Located Expr) : Lowering (List Reg) := do
  (← s.resolve e).registers e.location

def data (s : Scope) (l : Location) (block : DataBlock) : Lowering Unit := do
  let row ← (s.names (← get).aliases).dataRow block
  Trace.emit (.data ⟨l, row⟩)

/-- The inline procedure of a call. -/
def inlineProcedure (s : Scope) (l : Location) (name : String) : Trace Procedure :=
  match s.globals.procedure? name with
  | some p =>
    if !p.inline then .fail l (.notInline name)
    else if s.expansions.any (·.procedure.name.value = name) then .fail l (.recursiveInline name)
    else pure p
  | none =>
    if (s.globals.externalProcedure? name).isSome then .fail l (.notInline name)
    else .fail l (.unknownFunction name)

/-- Lowers the body of a procedure in place of a call, with a scope of its own. -/
def inlineCall (s : Scope) (expand : Location → Procedure → Scope → Lowering Unit) (l : Location)
    (call : Call Expr) : Lowering Unit := do
  let p ← s.inlineProcedure l call.name.value
  s.bindArguments p call l
  let st ← get
  let expansion := ⟨p, "_inl" ++ toString st.inlined⟩
  set { st with inlined := st.inlined + 1, aliases := [] }
  expand l p { s with expansions := expansion :: s.expansions, outer := st.aliases ++ s.outer }
  modify fun inner => { inner with aliases := st.aliases }

/-- An expression that stands as a statement. -/
def expression (s : Scope) (expand : Location → Procedure → Scope → Lowering Unit) (l : Location) :
    Expr → Lowering Unit
  | .assign op target value => do
    let t ← s.resolve target
    let v ← s.resolve value
    s.place l (Selection.assignBy op t v)
  | .unary (.step op) e | .suffix op e => do s.place l (Selection.step op (← s.resolve e))
  | .call call => s.inlineCall expand l call
  | _ => Trace.fail l .unsupported

/-- The target of a statement that only jumps. -/
def jump? (s : Scope) (l : Location) : Stmt → Option (Lowering LabelRef)
  | .goto name => some (pure (s.labelRef name))
  | .leave => some (s.loopTarget l false)
  | .again => some (s.loopTarget l true)
  | _ => none

mutual

def lower (s : Scope) (expand : Location → Procedure → Scope → Lowering Unit) (l : Location)
    (st : Stmt) : Lowering Unit :=
  match st with
  | .expr e => s.expression expand l e
  | .call call => s.inlineCall expand l call
  | .asm i => discard (s.asm i)
  | .label name global => Trace.define l (if global then name else s.stem ++ "@" ++ name)
  | .goto name => s.goto l (s.labelRef name)
  | .leave => do s.goto l (← s.loopTarget l false)
  | .again => do s.goto l (← s.loopTarget l true)
  | .branch condition ⟨yl, yes⟩ no => do
    let c ← s.resolve condition
    let stem := s.generated "if" l
    match s.jump? yl yes with
    | some target =>
      s.gotoIf l true c (← target) stem
      s.lowerOption expand no
    | none =>
      let stop := s.generated "if_end" l
      if no.all (·.value.isEmpty) then
        match yes.skip? c with
        | some (m, a, b) =>
          s.place l (Selection.emit m [a, b])
          Lowering.limited 1 2 yl (s.lower expand yl yes)
        | none =>
          s.gotoIf l false c (.plain stop) stem
          s.lower expand yl yes
          Trace.define l stop
      else if yes.isEmpty then
        s.gotoIf l true c (.plain stop) stem
        s.lowerOption expand no
        Trace.define l stop
      else
        let other := s.generated "if_else" l
        s.gotoIf l false c (.plain other) stem
        s.lower expand yl yes
        s.goto l (.plain stop)
        Trace.define l other
        s.lowerOption expand no
        Trace.define l stop
  | .loop none body => do
    let start := s.generated "loop" l
    let stop := s.generated "loopEnd" l
    Trace.define l start
    { s with loop := some ⟨start, stop⟩ }.lowerAll expand body
    s.goto l (.plain start)
    Trace.define l stop
  | .loop (some condition) body => do
    let start := s.generated "loop" l
    let stop := s.generated "loopEnd" l
    let counter ← s.counter condition
    let next := if anyContinues body then s.generated "loopNext" l else start
    Trace.define l start
    { s with loop := some ⟨next, stop⟩ }.lowerAll expand body
    if anyContinues body then Trace.define l next
    s.place l (counter.update (.plain start))
    Trace.define l stop
  | .doWhile body condition => do
    let start := s.generated "do" l
    let stop := s.generated "doEnd" l
    let next := if anyContinues body then s.generated "doNext" l else start
    Trace.define l start
    { s with loop := some ⟨next, stop⟩ }.lowerAll expand body
    if anyContinues body then Trace.define l next
    let c ← s.resolve condition
    s.gotoIf l true c (.plain start) (s.generated "while" l)
    Trace.define l stop
  | .block body => s.lowerAll expand body
  | .use a => s.use a
  | .saveRegs registers body => do
    let saved := (← registers.mapM s.savedRegisters).flatten
    saved.forM fun r => s.place l (Selection.onReg .push r)
    s.lowerAll expand body
    saved.reverse.forM fun r => s.place l (Selection.onReg .pop r)
  | .data block => s.data l block
termination_by structural st

def lowerOption (s : Scope) (expand : Location → Procedure → Scope → Lowering Unit)
    (st : Option (Located Stmt)) : Lowering Unit :=
  match st with
  | none => return
  | some ⟨l, st⟩ => s.lower expand l st
termination_by structural st

def lowerAll (s : Scope) (expand : Location → Procedure → Scope → Lowering Unit)
    (body : List (Located Stmt)) : Lowering Unit :=
  match body with
  | [] => return
  | ⟨l, st⟩ :: rest => do
    s.lower expand l st
    s.lowerAll expand rest
termination_by structural body

end

/-- Lowers the body of an inline procedure, in which at most `depth` expansions nest. -/
def expandUpTo : Nat → Location → Procedure → Scope → Lowering Unit
  | 0, l, p, _ => Trace.fail l (.recursiveInline p.name.value)
  | depth + 1, _, p, s => s.lowerAll (expandUpTo depth) p.body

/-- Lowers the body of a procedure that has code of its own. -/
def lowerBody (s : Scope) (body : List (Located Stmt)) : Lowering Unit :=
  s.lowerAll (expandUpTo s.globals.procedures.length) body

end Scope

end Avr
