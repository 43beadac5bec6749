/-!
# Written forms of records

Values are shown to a reader as a tag with its contents: `NodeId(7)` for a single item and
`InputUnit { id: InputId(3), is_extern: true }` for named fields.
-/
namespace FlowTyping.Text

def tagged (tag item : String) : String := tag ++ "(" ++ item ++ ")"

/-- A list in brackets, with a comma and a space between items. -/
def listed (items : List String) : String := "[" ++ ", ".intercalate items ++ "]"

def paired (first second : String) : String := "(" ++ first ++ ", " ++ second ++ ")"

def braced (tag : String) (items : List String) : String :=
  tag ++ " \x7b " ++ ", ".intercalate items ++ " \x7d"

private def field (entry : String × String) : String := entry.1 ++ ": " ++ entry.2

def record (tag : String) (fields : List (String × String)) : String :=
  braced tag (fields.map field)

/-- A tag with some of its fields; two dots stand for those left out. -/
def openRecord (tag : String) (fields : List (String × String)) : String :=
  braced tag (fields.map field ++ [".."])

def truth (b : Bool) : String := if b then "true" else "false"

end FlowTyping.Text
