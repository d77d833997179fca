import Restack.Path
import Restack.Text.Styled
import Restack.Utf8

/-!
# Command line arguments

The command line takes one path, and the flags for help and version. Arguments are read from left
to right up to the first flag or the first that does not fit; after `--` all are paths. A path
that is empty is refused at a flag or at the end, and at the end also one that is missing. Of an
unknown option it is said which flag it may have been meant for, if it is much like one.
-/

namespace Restack.Arguments

inductive Flag
  | help
  | version
deriving DecidableEq, Repr

inductive Problem
  | missing
  | emptyValue
  | surplus (arg : String)
  | unknownOption (option : String)
  | flagValue (flag : Flag) (value : String)
deriving DecidableEq, Repr

inductive Outcome
  | path (directory : Path)
  | flag (flag : Flag)
  | refused (problem : Problem)
deriving DecidableEq, Repr

inductive Token
  | positional
  -- two dashes
  | terminator
  | flag (flag : Flag)
  | wrong (problem : Problem)
deriving DecidableEq, Repr

def dash : UInt8 := 0x2D

def equals : UInt8 := 0x3D

def Flag.long : Flag → String
  | .help => "--help"
  | .version => "--version"

def Flag.ofLong? (option : List UInt8) : Option Flag :=
  [Flag.help, Flag.version].find? fun f => Utf8.encode f.long = option

def Flag.ofShort? (letter : Char) : Option Flag :=
  if letter = 'h' then some .help else if letter = 'V' then some .version else none

def Token.ofLong (a : List UInt8) : Token :=
  let option := a.takeWhile (· ≠ equals)
  let value? := if equals ∈ a then some (a.drop (option.length + 1)) else none
  match Flag.ofLong? option, value? with
  | some f, none => .flag f
  | some f, some value => .wrong (.flagValue f (Utf8.decodeLossy value))
  | none, _ => .wrong (.unknownOption (Utf8.decodeLossy option))

/-- Letters after one dash. The first of them settles what happens; if there is none, because the
bytes are no text, all of them are shown. -/
def Token.ofCluster (letters : List UInt8) : Token :=
  match (Utf8.pieces letters).head? with
  | some (.char c _) =>
    match Flag.ofShort? c with
    | some f => .flag f
    | none => .wrong (.unknownOption (String.ofList ['-', c]))
  | _ => .wrong (.unknownOption ("-" ++ Utf8.decodeLossy letters))

def Token.ofArgument (a : List UInt8) : Token :=
  if a = [dash, dash] then .terminator
  else if [dash, dash].isPrefixOf a then .ofLong a
  else if a.head? = some dash && a ≠ [dash] then .ofCluster (a.drop 1)
  else .positional

def atEnd : Option Path → Outcome
  | none => .refused .missing
  | some p => if p = [] then .refused .emptyValue else .path p

def parseFrom (found : Option Path) (literal : Bool) : List (List UInt8) → Outcome
  | [] => atEnd found
  | a :: rest =>
    match if literal then .positional else Token.ofArgument a with
    | .terminator => parseFrom found true rest
    | .flag f => if found = some [] then .refused .emptyValue else .flag f
    | .wrong problem => .refused problem
    | .positional =>
      match found with
      | none => parseFrom (some a) literal rest
      | some _ => .refused (.surplus (Utf8.decodeLossy a))

def parse (argv : List (List UInt8)) : Outcome := parseFrom none false (argv.drop 1)

def defaultName : String := "rebase-plan"

def version : String := "0.1.0"

def programName (argv : List (List UInt8)) : String :=
  let called := do
    let first ← argv.head?
    let name ← Path.fileName? first
    (Utf8.decode name).toOption
  called.getD defaultName

def placeholder : String := "<GIT_DIR>"

def usage (name : String) (flag? : Option Flag := none) : Text.Styled :=
  [⟨.heading, "Usage:"⟩, ⟨.plain, " "⟩, ⟨.literal, name⟩]
    ++ (flag?.toList.flatMap fun f => [⟨.plain, " "⟩, ⟨.literal, f.long⟩])
    ++ [⟨.plain, " " ++ placeholder ++ "\n\n"⟩]

def helpText (name : String) : Text.Styled :=
  [⟨.plain, "Print the git rebase commands needed to restack a hierarchy of branches\n\n"⟩]
    ++ usage name
    ++ [⟨.heading, "Arguments:"⟩,
      ⟨.plain, "\n  " ++ placeholder ++ "  Location of the repository's git metadata"⟩,
      ⟨.plain, " (e.g. path/to/repo/.git)\n\n"⟩,
      ⟨.heading, "Options:"⟩, ⟨.plain, "\n  "⟩,
      ⟨.literal, "-h"⟩, ⟨.plain, ", "⟩, ⟨.literal, "--help"⟩, ⟨.plain, "     Print help\n  "⟩,
      ⟨.literal, "-V"⟩, ⟨.plain, ", "⟩, ⟨.literal, "--version"⟩, ⟨.plain, "  Print version\n\n"⟩,
      ⟨.plain, "Commands are printed parent first. Nothing is executed.\n"⟩]

def versionText : Text.Styled := [⟨.plain, defaultName ++ " " ++ version ++ "\n"⟩]

def Flag.text (name : String) : Flag → Text.Styled
  | .help => helpText name
  | .version => versionText

def Problem.summary : Problem → Text.Styled
  | .missing =>
    [⟨.plain, "the following required arguments were not provided:\n  "⟩, ⟨.valid, placeholder⟩]
  | .emptyValue =>
    [⟨.plain, "a value is required for '"⟩, ⟨.invalid, placeholder⟩,
      ⟨.plain, "' but none was supplied"⟩]
  | .surplus arg | .unknownOption arg =>
    [⟨.plain, "unexpected argument '"⟩, ⟨.invalid, arg⟩, ⟨.plain, "' found"⟩]
  | .flagValue flag value =>
    [⟨.plain, "unexpected value '"⟩, ⟨.invalid, value⟩, ⟨.plain, "' for '"⟩,
      ⟨.literal, flag.long⟩, ⟨.plain, "' found; no more were expected"⟩]

/-- The letters of a text, from place `i` on, that stand in the other text too and near there, each
with its place in it. No place is used twice. -/
def matchesFrom (other : List Char) (reach : Nat) (used : List Nat) (i : Nat) :
    List Char → List (Char × Nat)
  | [] => []
  | c :: rest =>
    let isMatch (j : Nat) : Bool :=
      decide (i ≤ j + reach) && decide (j ≤ i + reach) && other[j]? = some c && !used.contains j
    match (List.range other.length).find? isMatch with
    | some j => (c, j) :: matchesFrom other reach (j :: used) (i + 1) rest
    | none => matchesFrom other reach used (i + 1) rest

/-- Jaro's similarity of two texts: the mean of the shares of each text that the other matches, and
of the share of the matches that stand in the same order. -/
def likeness (text other : List Char) : Rat :=
  let reach := max text.length other.length / 2 - 1
  let found := matchesFrom other reach [] 0 text
  let inOrder := (found.map Prod.snd).mergeSort.filterMap fun j => other[j]?
  let moved := ((found.map Prod.fst).zip inOrder).countP fun p => p.1 ≠ p.2
  let n := found.length
  (n / text.length + n / other.length + (n - (moved / 2 : Nat)) / n) / 3

def Flag.similar? (option : String) : Option Flag :=
  match option.toList with
  | '-' :: '-' :: name =>
    let likenessTo (f : Flag) : Rat := likeness name (f.long.toList.drop 2)
    let best := if likenessTo .version < likenessTo .help then .help else .version
    if 7 / 10 ≤ likenessTo best then some best else none
  | _ => none

def tip (text : Text.Styled) : Text.Styled :=
  [⟨.plain, "  "⟩, ⟨.valid, "tip:"⟩, ⟨.plain, " "⟩] ++ text ++ [⟨.plain, "\n\n"⟩]

def asValue (option : String) : Text.Styled :=
  [⟨.plain, "to pass '"⟩, ⟨.invalid, option⟩, ⟨.plain, "' as a value, use '"⟩,
    ⟨.valid, "-- " ++ option⟩, ⟨.plain, "'"⟩]

def similarTo (f : Flag) : Text.Styled :=
  [⟨.plain, "a similar argument exists: '"⟩, ⟨.valid, f.long⟩, ⟨.plain, "'"⟩]

def Problem.advice (name : String) : Problem → Text.Styled
  | .missing | .surplus _ => usage name
  | .emptyValue => []
  | .unknownOption option =>
    match Flag.similar? option with
    | some f => tip (similarTo f) ++ usage name (some f)
    | none => tip (asValue option) ++ usage name
  | .flagValue flag _ => usage name (some flag)

def Problem.text (name : String) (p : Problem) : Text.Styled :=
  [⟨.fault, "error:"⟩, ⟨.plain, " "⟩] ++ p.summary ++ [⟨.plain, "\n\n"⟩] ++ p.advice name
    ++ [⟨.plain, "For more information, try '"⟩, ⟨.literal, "--help"⟩, ⟨.plain, "'.\n"⟩]

end Restack.Arguments
