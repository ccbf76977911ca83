import Avr.Lowering.Branch

namespace Avr

/-- A jump on a single condition, or the place where a condition that fails comes out. -/
inductive Test
  | jump (s : Selection)
  | label (name : String)

namespace Test

/-- Jumps to `target` if the condition has the given truth value, and falls through if not. Labels
that this needs begin with `stem`. -/
def jumps (truth : Bool) (v : Value) (target : LabelRef) (stem : String) : List Test :=
  let out := stem ++ "@end"
  match truth, v with
  | true, .binary .both a b =>
    jumps false a (.plain out) (stem ++ "@and1") ++ jumps true b target (stem ++ "@and2") ++
      [label out]
  | true, .binary .either a b =>
    jumps true a target (stem ++ "@or1") ++ jumps true b target (stem ++ "@or2")
  | true, .unary .not v => jumps false v target stem
  | false, .binary .both a b =>
    jumps false a target (stem ++ "@not_and1") ++ jumps false b target (stem ++ "@not_and2")
  | false, .binary .either a b =>
    jumps true a (.plain out) (stem ++ "@not_or1") ++ jumps false b target (stem ++ "@not_or2") ++
      [label out]
  | false, .unary .not v => jumps true v target (stem ++ "@not_not1")
  | truth, v => [jump (Selection.jumpIf truth false target v)]

end Test

end Avr
