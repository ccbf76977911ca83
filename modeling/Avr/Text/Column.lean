namespace Avr.Column

def pad (width : Nat) (s : String) : String :=
  s ++ String.ofList (List.replicate (width - s.length) ' ')

def commas (items : List String) : String := String.intercalate ", " items

/-- A tab, the directive or mnemonic in a column of eight, and what follows it. -/
def row (head rest : String) : String := "\t" ++ pad 8 head ++ rest

end Avr.Column
