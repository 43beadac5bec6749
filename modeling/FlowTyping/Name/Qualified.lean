/-!
# Qualified names

A spelling with a dot is qualified. Its root identifier is the text before the first dot.
-/
namespace FlowTyping

def isQualified (spelling : String) : Bool := spelling.toList.contains '.'

/-- The root identifier of a qualified spelling; a simple spelling has none. -/
def rootIdentifier? (spelling : String) : Option String :=
  if isQualified spelling then
    some (String.ofList (spelling.toList.takeWhile (· != '.')))
  else
    none

end FlowTyping
