/-!
# Styled text

A text whose parts have styles. It is written in colours, each part between the sequences that
set and reset its style, or without them, with only what a terminal shows of each part. A text
that is taken as a whole and one that is printed differ in what interrupts a sequence.

Control characters and escape sequences steer a terminal and leave nothing on it. `visible` keeps
the rest, blanks that move the cursor among it. Such a blank interrupts a sequence in which it
stands, and what follows is shown. The sequence is then over, or it goes on at the next control
character, as long as only ASCII was shown in between.
-/

namespace Restack.Text

inductive Sequence
  | none
  | escape
  | intermediate
  | control
  | deviceEntry
  | deviceParameters
  | deviceIntermediate
  | string
  | command
deriving DecidableEq, Repr

def isControl (c : Char) : Bool := decide (c.toNat < 0x20) || c = '\x7f'

def isControlBlank (c : Char) : Bool := c = '\t' || c = '\n' || c = '\x0c' || c = '\r'

def Sequence.shows : Sequence → Char → Bool
  | .none, c => !isControl c || isControlBlank c
  | .escape, c | .intermediate, c | .control, c => isControlBlank c
  | _, _ => false

def endsString (c : Char) : Bool := (String.utf8EncodeChar c).contains 0x9C

def Sequence.next (s : Sequence) (c : Char) : Sequence :=
  let within (a b : Char) : Bool := decide (a ≤ c) && decide (c ≤ b)
  if c = '\x18' || c = '\x1a' then .none
  else if c = '\x1b' then .escape
  else
    match s with
    | .none => .none
    | .escape =>
      if c = '[' then .control
      else if c = ']' then .command
      else if c = 'P' then .deviceEntry
      else if c = 'X' || c = '^' || c = '_' then .string
      else if within ' ' '/' then .intermediate
      else if within '0' '~' then .none
      else s
    | .intermediate => if within '0' '~' then .none else s
    | .control => if within '@' '~' then .none else s
    | .deviceEntry =>
      if within ' ' '/' then .deviceIntermediate
      else if within '0' '?' then .deviceParameters
      else if within '@' '~' then .string
      else s
    | .deviceParameters =>
      if within ' ' '/' then .deviceIntermediate
      else if within '<' '~' then .string
      else s
    | .deviceIntermediate => if within '0' '~' then .string else s
    | .string => if endsString c then .none else s
    | .command => if c = '\x07' then .none else s

inductive Interruption
  | ends
  | suspends
deriving DecidableEq, Repr

def Interruption.pending (i : Interruption) (s : Sequence) (c : Char) : Sequence :=
  match i with
  | .ends => .none
  | .suspends => if c.toNat < 0x80 then s else .none

/-- What is shown of a text in the sequence `s`, which is interrupted if `showing`. -/
def visibleFrom (i : Interruption) (s : Sequence) (showing : Bool) : List Char → List Char
  | [] => []
  | c :: rest =>
    if (if showing then .none else s : Sequence).shows c then
      c :: visibleFrom i (i.pending s c) true rest
    else visibleFrom i (s.next c) false rest

def visible (i : Interruption) (text : String) : String :=
  String.ofList (visibleFrom i .none false text.toList)

inductive Style
  | plain
  | heading
  | literal
  | fault
  | valid
  | invalid
deriving DecidableEq, Repr

def Style.codes : Style → List String
  | .plain => []
  | .heading => ["1", "4"]
  | .literal => ["1"]
  | .fault => ["1", "31"]
  | .valid => ["32"]
  | .invalid => ["33"]

structure Span where
  style : Style
  text : String
deriving DecidableEq, Repr

abbrev Styled := List Span

def setRendition (code : String) : String := "\x1b[" ++ code ++ "m"

def Span.coloured (s : Span) : String :=
  match s.style.codes with
  | [] => s.text
  | codes => String.join (codes.map setRendition) ++ s.text ++ setRendition "0"

inductive Rendering
  | whole
  | printed
  | coloured
deriving DecidableEq, Repr

def Span.render (s : Span) : Rendering → String
  | .whole => visible .ends s.text
  | .printed => visible .suspends s.text
  | .coloured => s.coloured

def Styled.render (text : Styled) (r : Rendering) : String :=
  String.join (text.map fun s => s.render r)

end Restack.Text
