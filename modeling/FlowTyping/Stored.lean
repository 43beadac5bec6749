import FlowTyping.Variable

/-!
# Stored forms

Handles and declaration forms are stored as JSON texts: a handle as its number, a form as its word
in quotes. Blanks may stand around the text, and the word of a form may also be the only key of an
object with the value `null`. Nothing else is read.
-/
namespace FlowTyping.Stored

def isBlank (c : Char) : Bool := c == ' ' || c == '\t' || c == '\n' || c == '\r'

def skipBlanks (cs : List Char) : List Char := cs.dropWhile isBlank

/-- The value of a row of decimal digits that does not start with a needless zero. -/
def number? (digits : List Char) : Option Nat :=
  match digits with
  | [] => none
  | '0' :: _ :: _ => none
  | _ => some (digits.foldl (fun value c => value * 10 + (c.toNat - '0'.toNat)) 0)

def readHandle? (entity : Entity) (text : String) : Option (Handle entity) := do
  let cs := skipBlanks text.toList
  let value ← number? (cs.takeWhile Char.isDigit)
  guard (skipBlanks (cs.dropWhile Char.isDigit) = [] ∧ value < Handle.capacity)
  return ⟨value⟩

def writeHandle {entity : Entity} (handle : Handle entity) : String := toString handle.raw

def hexDigit? (c : Char) : Option Nat :=
  if '0' ≤ c ∧ c ≤ '9' then some (c.toNat - '0'.toNat)
  else if 'a' ≤ c ∧ c ≤ 'f' then some (c.toNat - 'a'.toNat + 10)
  else if 'A' ≤ c ∧ c ≤ 'F' then some (c.toNat - 'A'.toNat + 10)
  else none

/-- Reads the letters of a word up to the closing quote; answers them with the rest of the text. A
letter may be written by its code in four hexadecimal digits. The words of forms are plain letters,
so no other escape can be part of one. -/
def readWord? : List Char → Option (List Char × List Char)
  | '"' :: rest => some ([], rest)
  | '\\' :: 'u' :: a :: b :: c :: d :: rest => do
    let code := (((← hexDigit? a) * 16 + (← hexDigit? b)) * 16 + (← hexDigit? c)) * 16 +
      (← hexDigit? d)
    let (word, rest) ← readWord? rest
    return (Char.ofNat code :: word, rest)
  | '\\' :: _ => none
  | c :: rest => do
    let (word, rest) ← readWord? rest
    return (c :: word, rest)
  | [] => none

/-- Reads a form in quotes; answers it with the rest of the text. -/
def readQuoted? (cs : List Char) : Option (DeclForm × List Char) :=
  match skipBlanks cs with
  | '"' :: rest => do
    let (word, rest) ← readWord? rest
    return (← DeclForm.ofText? (String.ofList word), rest)
  | _ => none

/-- Reads the value of the only key of an object, and the end of the object. -/
def readNullValue? (cs : List Char) : Option (List Char) :=
  match skipBlanks cs with
  | ':' :: rest =>
    match skipBlanks rest with
    | 'n' :: 'u' :: 'l' :: 'l' :: rest =>
      match skipBlanks rest with
      | '\x7d' :: rest => some rest
      | _ => none
    | _ => none
  | _ => none

/-- Reads a form with or without an object around it; answers it with the rest of the text. -/
def readFormValue? (cs : List Char) : Option (DeclForm × List Char) :=
  match skipBlanks cs with
  | '\x7b' :: rest => do
    let (form, rest) ← readQuoted? rest
    return (form, ← readNullValue? rest)
  | cs => readQuoted? cs

def readForm? (text : String) : Option DeclForm := do
  let (form, rest) ← readFormValue? text.toList
  guard (skipBlanks rest = [])
  return form

def writeForm (form : DeclForm) : String := "\"" ++ form.text ++ "\""

end FlowTyping.Stored
