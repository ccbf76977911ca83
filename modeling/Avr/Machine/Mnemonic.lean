namespace Avr

inductive Mnemonic
  | nop | sec | clc | sen | cln | sez | clz | sei | cli | ses | cls | sev | clv | set | clt | seh
  | clh | sleep | wdr | ijmp | eijmp | icall | eicall | ret | reti | spm | espm | brk
  | add | adc | sub | sbc | and | or | eor | cp | cpc | cpse | mov | mul
  | subi | sbci | andi | ori | cpi | ldi | sbr | cbr
  | com | neg | swap | inc | asr | lsr | ror | dec | push | pop | tst | clr | lsl | rol | ser
  | brbs | brbc | breq | brne | brcs | brcc | brsh | brlo | brmi | brpl | brge | brlt | brhs
  | brhc | brts | brtc | brvs | brvc | brie | brid
  | rjmp | rcall | jmp | call
  | adiw | sbiw | input | output | sbic | sbis | sbi | cbi | sbrc | sbrs | bst | bld | bset
  | bclr
  | lds | sts | ld | st | ldd | std | lpm | elpm
  | movw | muls | mulsu | fmul | fmuls | fmulsu
deriving DecidableEq

namespace Mnemonic

def all : List Mnemonic :=
  [nop, sec, clc, sen, cln, sez, clz, sei, cli, ses, cls, sev, clv, set, clt, seh, clh, sleep,
   wdr, ijmp, eijmp, icall, eicall, ret, reti, spm, espm, brk, add, adc, sub, sbc, and, or, eor,
   cp, cpc, cpse, mov, mul, subi, sbci, andi, ori, cpi, ldi, sbr, cbr, com, neg, swap, inc, asr,
   lsr, ror, dec, push, pop, tst, clr, lsl, rol, ser, brbs, brbc, breq, brne, brcs, brcc, brsh,
   brlo, brmi, brpl, brge, brlt, brhs, brhc, brts, brtc, brvs, brvc, brie, brid, rjmp, rcall,
   jmp, call, adiw, sbiw, input, output, sbic, sbis, sbi, cbi, sbrc, sbrs, bst, bld, bset, bclr,
   lds, sts, ld, st, ldd, std, lpm, elpm, movw, muls, mulsu, fmul, fmuls, fmulsu]

def name : Mnemonic → String
  | nop => "nop" | sec => "sec" | clc => "clc" | sen => "sen" | cln => "cln" | sez => "sez"
  | clz => "clz" | sei => "sei" | cli => "cli" | ses => "ses" | cls => "cls" | sev => "sev"
  | clv => "clv" | set => "set" | clt => "clt" | seh => "seh" | clh => "clh" | sleep => "sleep"
  | wdr => "wdr" | ijmp => "ijmp" | eijmp => "eijmp" | icall => "icall" | eicall => "eicall"
  | ret => "ret" | reti => "reti" | spm => "spm" | espm => "espm" | brk => "break"
  | add => "add" | adc => "adc" | sub => "sub" | sbc => "sbc" | and => "and" | or => "or"
  | eor => "eor" | cp => "cp" | cpc => "cpc" | cpse => "cpse" | mov => "mov" | mul => "mul"
  | subi => "subi" | sbci => "sbci" | andi => "andi" | ori => "ori" | cpi => "cpi" | ldi => "ldi"
  | sbr => "sbr" | cbr => "cbr"
  | com => "com" | neg => "neg" | swap => "swap" | inc => "inc" | asr => "asr" | lsr => "lsr"
  | ror => "ror" | dec => "dec" | push => "push" | pop => "pop" | tst => "tst" | clr => "clr"
  | lsl => "lsl" | rol => "rol" | ser => "ser"
  | brbs => "brbs" | brbc => "brbc" | breq => "breq" | brne => "brne" | brcs => "brcs"
  | brcc => "brcc" | brsh => "brsh" | brlo => "brlo" | brmi => "brmi" | brpl => "brpl"
  | brge => "brge" | brlt => "brlt" | brhs => "brhs" | brhc => "brhc" | brts => "brts"
  | brtc => "brtc" | brvs => "brvs" | brvc => "brvc" | brie => "brie" | brid => "brid"
  | rjmp => "rjmp" | rcall => "rcall" | jmp => "jmp" | call => "call"
  | adiw => "adiw" | sbiw => "sbiw" | input => "in" | output => "out" | sbic => "sbic"
  | sbis => "sbis" | sbi => "sbi" | cbi => "cbi" | sbrc => "sbrc" | sbrs => "sbrs" | bst => "bst"
  | bld => "bld" | bset => "bset" | bclr => "bclr"
  | lds => "lds" | sts => "sts" | ld => "ld" | st => "st" | ldd => "ldd" | std => "std"
  | lpm => "lpm" | elpm => "elpm"
  | movw => "movw" | muls => "muls" | mulsu => "mulsu" | fmul => "fmul" | fmuls => "fmuls"
  | fmulsu => "fmulsu"

/-- Names are read in either case. -/
def ofName? (s : String) : Option Mnemonic :=
  let name := s.toLower
  all.find? (·.name = name)

/-- Bytes of the encoding: jumps and loads with a full address take a second word. -/
def size : Mnemonic → Nat
  | jmp | call | lds | sts => 4
  | _ => 2

end Mnemonic

end Avr
