/-!
# Paths

A path is a list of bytes with slashes between names. Repeated slashes and names `.` inside of it
mean nothing. Taking a path apart keeps its bytes: the directory of a path is the part of it
that stands before its last name.
-/

namespace Restack

abbrev Path := List UInt8

namespace Path

def slash : UInt8 := 0x2F

def dot : List UInt8 := [0x2E]

def dotdot : List UInt8 := [0x2E, 0x2E]

inductive Component
  | root
  -- a leading dot
  | here
  -- two dots
  | up
  | name (bytes : List UInt8)
deriving DecidableEq, Repr

/-- The bytes at the front that belong to no name: the slash of an absolute path, or a leading
`.` that is a whole name. -/
def lead (p : Path) : Path :=
  match p with
  | [] => []
  | b :: rest =>
    if b = slash then [slash]
    else if [b] = dot && (rest.isEmpty || rest.head? = some slash) then dot
    else []

def segments (p : Path) : List (List UInt8) := (p.drop p.lead.length).splitOn slash

def isIdle (segment : List UInt8) : Bool := segment.isEmpty || segment = dot

def Component.ofSegment (segment : List UInt8) : Component :=
  if segment = dotdot then .up else .name segment

def leadComponent (p : Path) : List Component :=
  if p.lead = [] then [] else if p.lead = dot then [.here] else [.root]

def components (p : Path) : List Component :=
  p.leadComponent ++ (p.segments.filter fun s => !isIdle s).map .ofSegment

def fileName? (p : Path) : Option (List UInt8) :=
  match p.components.getLast? with
  | some (.name n) => some n
  | _ => none

/-- The segments up to the last one that means something, that one left out, and again without
those at the end that mean nothing. -/
def directorySegments (segments : List (List UInt8)) : List (List UInt8) :=
  (((segments.reverse.dropWhile isIdle).drop 1).dropWhile isIdle).reverse

def directory (p : Path) : Path :=
  p.lead ++ [slash].intercalate (directorySegments p.segments)

def isAbsolute (p : Path) : Bool := p.head? = some slash

def join (base p : Path) : Path :=
  if p.isAbsolute then p
  else if base = [] || base.getLast? = some slash then base ++ p
  else base ++ slash :: p

end Path

end Restack
