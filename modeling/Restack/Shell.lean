/-!
# Shell words

A name is written as one word of a POSIX shell: as it is when nothing in it can mean anything to
a shell, else between single quotes, where only the quote itself has to be left and escaped.

The reader is for the part of the POSIX shell language that needs no shell: words between blanks,
commands between newlines, single quotes, and the backslash outside of them. Any other character
that means something to a shell is refused where it is not quoted.
-/

namespace Restack.Shell

def isPlain (c : Char) : Bool :=
  c.isAlphanum || c = '-' || c = '_' || c = '.' || c = '/'

def isPlainName (name : List Char) : Bool := !name.isEmpty && name.all isPlain

/-- A character between single quotes. A quote closes them, stands escaped and opens them anew. -/
def quoted (c : Char) : List Char :=
  if c = '\'' then ['\'', '\\', '\'', '\''] else [c]

def word (name : List Char) : List Char :=
  if isPlainName name then name else '\'' :: name.flatMap quoted ++ ['\'']

def quote (name : String) : String := String.ofList (word name.toList)

def quoteRevision (name suffix : String) : String := quote name ++ suffix

@[simp] theorem toList_quote (name : String) : (quote name).toList = word name.toList := by
  simp [quote]

def isSpecial (c : Char) : Bool :=
  c ∈ ['$', '\x60', '"', '&', '|', ';', '<', '>', '(', ')', '*', '?', '[', ']', '{', '}', '!', '#']

def isSeparator (c : Char) : Bool := c = ' ' || c = '\t'

/-- Where the reader stands: the commands that are complete, the words of the one being read, and
the word being read, if one has begun. -/
structure Position where
  commands : List (List (List Char))
  words : List (List Char)
  current : Option (List Char)
deriving DecidableEq

namespace Position

def start : Position := ⟨[], [], none⟩

def push (p : Position) (c : Char) : Position :=
  { p with current := some (p.current.getD [] ++ [c]) }

def openWord (p : Position) : Position := { p with current := some (p.current.getD []) }

def endWord (p : Position) : Position :=
  match p.current with
  | none => p
  | some w => { p with words := p.words ++ [w], current := none }

def endCommand (p : Position) : Position :=
  let p := p.endWord
  if p.words.isEmpty then p else { p with commands := p.commands ++ [p.words], words := [] }

end Position

mutual

def readPlain (p : Position) : List Char → Option Position
  | [] => some p.endCommand
  | c :: rest =>
    if c = '\n' then readPlain p.endCommand rest
    else if isSeparator c then readPlain p.endWord rest
    else if c = '\'' then readQuoted p.openWord rest
    else if c = '\\' then readEscaped p rest
    else if isSpecial c then none
    else if c = '~' && p.current.isNone then none
    else readPlain (p.push c) rest

def readEscaped (p : Position) : List Char → Option Position
  | [] => none
  | c :: rest => readPlain (p.push c) rest

def readQuoted (p : Position) : List Char → Option Position
  | [] => none
  | c :: rest => if c = '\'' then readPlain p rest else readQuoted (p.push c) rest

end

/-- The commands of a text, each as its words, or none if a shell would have to do more than
split the text. -/
def read (text : String) : Option (List (List String)) :=
  (readPlain .start text.toList).map fun p => p.commands.map fun words => words.map String.ofList

end Restack.Shell
