import Avr.Error

namespace Avr

structure Report where
  kind : String := "error"
  items : List (Located String)

namespace Report

def ofErrors (errors : List (Located Error)) : Report :=
  { items := errors.map (·.map Error.message) }

def ofWarnings (warnings : List (Located Warning)) : Report :=
  { kind := "warning", items := warnings.map (·.map Warning.message) }

def isEmpty (r : Report) : Bool := r.items.isEmpty

def entry (kind : String) (item : Located String) : String :=
  kind ++ ": " ++ item.value ++ "\n --> " ++ item.location.text ++ "\n\n"

/-- Only errors are counted at the end. -/
def footer (r : Report) : String :=
  if r.kind = "error" then
    let count := r.items.length
    "Build failed with " ++ toString count ++ (if count = 1 then " error" else " errors") ++ "\n"
  else ""

def text (r : Report) : String :=
  if r.isEmpty then "No " ++ r.kind ++ "s were reported\n"
  else String.join (r.items.map (entry r.kind)) ++ r.footer

end Report

end Avr
