/-!
# UTF-8

Bytes are read piece by piece: a well formed sequence is one character, anything else is taken
in the longest runs that could have begun one. Reading strictly stops at the first such run and
says where it is and how long; reading leniently puts the replacement character in its place.
-/

namespace Restack.Utf8

structure Range where
  low : UInt8
  high : UInt8
deriving DecidableEq, Repr

def Range.contains (r : Range) (b : UInt8) : Bool := decide (r.low ≤ b) && decide (b ≤ r.high)

def Range.tail : Range := ⟨0x80, 0xBF⟩

/-- The ranges of the bytes that must follow a lead byte, or none if no sequence begins with it.
The second byte is narrowed where the sequence would be overlong, a surrogate or too large. -/
def followers? (lead : UInt8) : Option (List Range) :=
  if lead < 0x80 then some []
  else if lead < 0xC2 then none
  else if lead < 0xE0 then some [.tail]
  else if lead = 0xE0 then some [⟨0xA0, 0xBF⟩, .tail]
  else if lead = 0xED then some [⟨0x80, 0x9F⟩, .tail]
  else if lead < 0xF0 then some [.tail, .tail]
  else if lead = 0xF0 then some [⟨0x90, 0xBF⟩, .tail, .tail]
  else if lead < 0xF4 then some [.tail, .tail, .tail]
  else if lead = 0xF4 then some [⟨0x80, 0x8F⟩, .tail, .tail]
  else none

def countFitting : List Range → List UInt8 → Nat
  | r :: rs, b :: bs => if r.contains b then countFitting rs bs + 1 else 0
  | _, _ => 0

theorem countFitting_le_ranges (rs : List Range) (bs : List UInt8) :
    countFitting rs bs ≤ rs.length := by
  fun_induction countFitting rs bs <;> simp_all

theorem countFitting_le_bytes (rs : List Range) (bs : List UInt8) :
    countFitting rs bs ≤ bs.length := by
  fun_induction countFitting rs bs <;> simp_all

def leadBits (lead : UInt8) : Nat → Nat
  | 0 => lead.toNat
  | 1 => lead.toNat % 0x20
  | 2 => lead.toNat % 0x10
  | _ => lead.toNat % 0x08

def charOf (lead : UInt8) (rest : List UInt8) : Char :=
  Char.ofNat (rest.foldl (fun n b => n * 0x40 + b.toNat % 0x40) (leadBits lead rest.length))

inductive Piece
  | char (c : Char) (size : Nat)
  | invalid (size : Nat)
  -- at the end of the bytes
  | incomplete (size : Nat)
deriving DecidableEq, Repr

def Piece.size : Piece → Nat
  | .char _ n | .invalid n | .incomplete n => n

def firstPiece (lead : UInt8) (rest : List UInt8) : Piece :=
  match followers? lead with
  | none => .invalid 1
  | some ranges =>
    let n := countFitting ranges rest
    if n = ranges.length then .char (charOf lead (rest.take n)) (n + 1)
    else if n = rest.length then .incomplete (n + 1)
    else .invalid (n + 1)

theorem firstPiece_size_pos (lead : UInt8) (rest : List UInt8) :
    0 < (firstPiece lead rest).size := by
  unfold firstPiece
  split
  · exact Nat.one_pos
  · dsimp only
    split
    · exact Nat.succ_pos _
    · split <;> exact Nat.succ_pos _

def pieces : List UInt8 → List Piece
  | [] => []
  | lead :: rest =>
    firstPiece lead rest :: pieces ((lead :: rest).drop (firstPiece lead rest).size)
termination_by bytes => bytes.length
decreasing_by
  have := firstPiece_size_pos lead rest
  simp only [List.length_drop, List.length_cons]
  omega

/-- Why bytes are not a text: up to `index` they are one, and there either stand `size` bytes
that begin no character, or (`none`) the text ends inside a character. -/
structure DecodeError where
  index : Nat
  size : Option Nat
deriving DecidableEq, Repr

def DecodeError.message (e : DecodeError) : String :=
  match e.size with
  | some n => s!"invalid utf-8 sequence of {n} bytes from index {e.index}"
  | none => s!"incomplete utf-8 byte sequence from index {e.index}"

def charsFrom (index : Nat) : List Piece → Except DecodeError (List Char)
  | [] => .ok []
  | .char c n :: rest => (charsFrom (index + n) rest).map (c :: ·)
  | .invalid n :: _ => .error ⟨index, some n⟩
  | .incomplete _ :: _ => .error ⟨index, none⟩

def decode (bytes : List UInt8) : Except DecodeError String :=
  (charsFrom 0 (pieces bytes)).map String.ofList

def replacement : Char := '\uFFFD'

def Piece.shown : Piece → Char
  | .char c _ => c
  | .invalid _ | .incomplete _ => replacement

def decodeLossy (bytes : List UInt8) : String := String.ofList ((pieces bytes).map Piece.shown)

def encode (s : String) : List UInt8 := s.toList.flatMap String.utf8EncodeChar

end Restack.Utf8
