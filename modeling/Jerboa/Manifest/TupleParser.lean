import Jerboa.Lib.Assoc
import Jerboa.Lib.Bytes
import Jerboa.Lib.Feed

/-!
# The tuple parser of the kernel and mkfs

`tuple_parser` of `kernel/src/runtime/tuple_parser.c` and the characters it is
fed with.  Each closure is a constructor with what is bound in it; a closure
that holds a tuple, a vector or a string under construction holds what is in it
so far.  Allocation is taken to succeed, and sizes to stay in the range of the
integers that hold them.
-/

namespace Jerboa.Manifest.C

open Lib Lib.Feed

abbrev Character := UInt32

def utf8Length (x : UInt8) : Nat :=
  if ~~~x &&& 0x80 ≠ 0 then 1
  else if x &&& 0xe0 = 0xc0 then 2
  else if x &&& 0xf0 = 0xe0 then 3
  else if x &&& 0xf8 = 0xf0 then 4
  else 1

def leadBits (x : UInt8) : Nat → Character
  | 1 => x.toUInt32
  | 2 => (x &&& 0x3f).toUInt32
  | 3 => (x &&& 0x1f).toUInt32
  | _ => (x &&& 0xf).toUInt32

def addBits (c : Character) (x : UInt8) : Character := (c <<< 6) ||| (x &&& 0x3f).toUInt32

/-- `utf8_decode`: the character and its length, or `CHARACTER_INVALID`. -/
def utf8Decode : Bytes → Option (Character × Nat)
  | [] => none
  | x :: xs =>
    let len := utf8Length x
    if (x :: xs).length < len then none
    else
      some ((xs.take (len - 1)).foldl addBits (leadBits x len), len)

/-- `string_foreach`: the characters that `pop_character` gives one after the
other.  There are no more of them than bytes. -/
def popCharacters : Nat → Bytes → List Character
  | 0, _ => []
  | n + 1, s =>
    match utf8Decode s with
    | none => []
    | some (c, z) => c :: popCharacters n (s.drop z)

def characters (s : Bytes) : List Character := popCharacters s.length s

/-- `push_character`.  `buffer_write_byte` keeps the low byte of what it is
given. -/
def pushCharacter (s : Bytes) (c : Character) : Bytes :=
  if c < 0x80 then s ++ [UInt32.toUInt8 c]
  else if c < 0x800 then
    s ++ [UInt32.toUInt8 ((c >>> 6) ||| 0xc0), UInt32.toUInt8 ((c &&& 0x3f) ||| 0x80)]
  else if c < 0x10000 then
    s ++ [UInt32.toUInt8 ((c >>> 12) ||| 0xe0), UInt32.toUInt8 (((c >>> 6) &&& 0x3f) ||| 0x80),
      UInt32.toUInt8 ((c &&& 0x3f) ||| 0x80)]
  else if c < 0x110000 then
    s ++ [UInt32.toUInt8 ((c >>> 18) ||| 0xf0), UInt32.toUInt8 (((c >>> 12) &&& 0x3f) ||| 0x80),
      UInt32.toUInt8 (((c >>> 6) &&& 0x3f) ||| 0x80), UInt32.toUInt8 ((c &&& 0x3f) ||| 0x80)]
  else s

/-- `value`.  A table is the list of its bindings in the order they were first
made; the order a table is walked in follows the hashes of the names, and is no
part of it. -/
inductive Value where
  | null
  | string (s : Bytes)
  | tuple (t : List (Bytes × Value))
  | vector (v : List Value)
deriving BEq, Repr

abbrev Table := List (Bytes × Value)

/-- `table_set` of a value that is not empty, under a symbol.  Symbols are
interned, so that they are equal where their bytes are. -/
def tableSet (t : Table) (a : Bytes) (v : Value) : Table := Assoc.set t a v

def vectorSet (v : List Value) (offset : Nat) (x : Value) : List Value :=
  (v ++ List.replicate (offset + 1 - v.length) Value.null).set offset x

/-! ## Closures -/

def charset (elements : List Char) : List Character := elements.map Char.val

def whitespace : List Character := charset [' ', '\n', '\r', '\t']

def valueTerminal : List Character := charset ['(', ')', '[', ']'] ++ whitespace

def propertySigils : List Character := charset [':', '|', '/']

def nameTerminal : List Character :=
  (charset ['(', ')', '[', ']'] ++ propertySigils) ++ whitespace

/-- The errors the parser reports. -/
inductive ParseError where
  | unknownPropertyDiscriminator (x : Character)
  | leadingChar (c : Character)
deriving DecidableEq, Repr

inductive Completion where
  | bridgeCompletion
  /-- `value_complete` of a tuple, with `is_end_of_tuple` for its check. -/
  | tupleValueComplete (t : Table) (a : Bytes) (c : Completion)
  /-- `value_complete` of a vector, with `is_end_of_vector` for its check. -/
  | vectorValueComplete (v : List Value) (a index : Nat) (c : Completion)
  | nameComplete (t : Table) (c : Completion)

inductive Parser where
  | tilNewline (finish : Parser)
  | eatWhitespace (finish : Parser)
  | escapedCharacter (c : Completion) (s : Bytes)
  | quotedString (c : Completion) (s : Bytes)
  | terminal (c : Completion) (final : List Character) (s : Bytes)
  | dispatchProperty (pv : Parser)
  | isEndOfTuple (c : Completion) (t : Table)
  | isEndOfVector (c : Completion) (v : List Value) (index : Nat)
  | parseValueString (c : Completion) (s : Bytes)
  | parseValue (c : Completion)
  | parseTuple (c : Completion)
  | parseName (c : Completion) (s : Bytes)
  | kill

/-- The parser for the next character, with what was reported to `parse_finish`
and `parse_error`. -/
structure State where
  parser : Parser
  finished : List Value
  errors : List ParseError

def tupleParser : Parser := .eatWhitespace (.parseTuple .bridgeCompletion)

def State.start : State := ⟨tupleParser, [], []⟩

def Completion.applyValue (st : State) : Completion → Value → State
  | .bridgeCompletion, v => { st with parser := tupleParser, finished := st.finished ++ [v] }
  | .tupleValueComplete t a c, v =>
    { st with parser := .eatWhitespace (.isEndOfTuple c (tableSet t a v)) }
  | .vectorValueComplete v a index c, x =>
    { st with parser := .isEndOfVector c (vectorSet v a x) index }
  -- A name is a string always.
  | .nameComplete _ _, _ => st

def Completion.applyString (st : State) : Completion → Bytes → State
  | .nameComplete t c, b =>
    { st with
      parser := .eatWhitespace (.dispatchProperty (.parseValue (.tupleValueComplete t b c))) }
  | c, s => c.applyValue st (.string s)

def State.bridgeErr (st : State) (e : ParseError) : State :=
  { st with parser := .kill, errors := st.errors ++ [e] }

def State.apply (st : State) (x : Character) : Move Empty State :=
  match st.parser with
  | .tilNewline finish =>
    if x = '\n'.val then .take { st with parser := finish } else .take st
  | .eatWhitespace finish =>
    if x = '#'.val then .take { st with parser := .tilNewline (.eatWhitespace finish) }
    else if x ∈ whitespace then .take st
    else .again { st with parser := finish }
  | .escapedCharacter c s => .take { st with parser := .quotedString c (pushCharacter s x) }
  | .quotedString c s =>
    if x = '"'.val then .take (c.applyString st s)
    else if x = '\\'.val then .take { st with parser := .escapedCharacter c s }
    else .take { st with parser := .quotedString c (pushCharacter s x) }
  | .terminal c final s =>
    if x ∈ final then .again (c.applyString st s)
    else .take { st with parser := .terminal c final (pushCharacter s x) }
  | .dispatchProperty pv =>
    if x = ':'.val then .take { st with parser := pv }
    else .take (st.bridgeErr (.unknownPropertyDiscriminator x))
  | .isEndOfTuple c t =>
    if x = ')'.val then .take (c.applyValue st (.tuple t))
    else .again { st with parser := .eatWhitespace (.parseName (.nameComplete t c) []) }
  | .isEndOfVector c v index =>
    if x = ']'.val then .take (c.applyValue st (.vector v))
    else
      .again { st with
        parser := .eatWhitespace (.parseValue (.vectorValueComplete v index (index + 1) c)) }
  | .parseValueString c s =>
    if x = '"'.val then .take { st with parser := .quotedString c s }
    else .again { st with parser := .terminal c valueTerminal s }
  | .parseValue c =>
    if x = '('.val then .take { st with parser := .eatWhitespace (.isEndOfTuple c []) }
    else if x = '['.val then .take { st with parser := .eatWhitespace (.isEndOfVector c [] 0) }
    else .again { st with parser := .eatWhitespace (.parseValueString c []) }
  | .parseTuple c =>
    if x = '('.val then .take { st with parser := .eatWhitespace (.isEndOfTuple c []) }
    else .take (st.bridgeErr (.leadingChar x))
  | .parseName c s =>
    if x = '"'.val then .take { st with parser := .quotedString c s }
    else .again { st with parser := .terminal c nameTerminal s }
  | .kill => .take st

/-- `parser_feed` of the bytes to a new parser. -/
def parserFeed (fuel : Nat) (s : Bytes) : Option State :=
  match feed State.apply fuel .start (characters s) with
  | some (.ok st) => some st
  | _ => none

theorem feeds_of_parserFeed {fuel : Nat} {s : Bytes} {st : State}
    (h : parserFeed fuel s = some st) : Feeds State.apply .start (characters s) st := by
  unfold parserFeed at h
  split at h
  · next st' hfeed =>
    cases h
    exact feeds_of_feed hfeed
  · cases h

end Jerboa.Manifest.C
