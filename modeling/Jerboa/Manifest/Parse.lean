import Jerboa.Lib.Assoc
import Jerboa.Lib.Feed
import Jerboa.Net.Address

/-!
# Parsing a manifest

`ParseManifest` of package `image`.  The parser is a function of one character
that returns the function for the next one; here each of these functions, and
each function that waits for a name or a value, is a constructor with what it
has captured.  A function that passes its character on is an `again`.
-/

namespace Jerboa.Manifest

open Lib Lib.Feed Net.Address

inductive ManifestValue where
  | string (s : Text)
  | tuple (entries : List (Text × ManifestValue))
  | vector (items : List ManifestValue)
deriving BEq, Repr

abbrev Entries := List (Text × ManifestValue)

/-- The errors of `ParseManifest` and `ManifestHosts`. -/
inductive ManifestErr where
  | notUTF8
  | controlCharacter (r : Char)
  | expectedTuple (r : Char)
  | unknownDiscriminator (r : Char)
  | moreThanOneTuple
  | incomplete
  | hostNotPath
deriving DecidableEq, Repr

def manifestWhitespace : List Char := [' ', '\n', '\r', '\t']

def nameTerminals : List Char := ['(', ')', '[', ']', ':', '|', '/'] ++ manifestWhitespace

def valueTerminals : List Char := ['(', ')', '[', ']'] ++ manifestWhitespace

def setEntry (entries : Entries) (name : Text) (v : ManifestValue) : Entries :=
  Assoc.set entries name v

inductive ValueDone where
  | root
  | entry (entries : Entries) (name : Text) (done : ValueDone)
  | item (items : List ManifestValue) (done : ValueDone)

inductive StringDone where
  | name (entries : Entries) (done : ValueDone)
  | value (done : ValueDone)

inductive ParseFn where
  | ignoreWhitespace (next : ParseFn)
  | comment (next : ParseFn)
  | quotedString (done : StringDone) (b : Text)
  | escaped (done : StringDone) (b : Text)
  | terminal (terminals : List Char) (done : StringDone) (b : Text)
  | parseTuple (done : ValueDone)
  | endOfTuple (entries : Entries) (done : ValueDone)
  | discriminator (pv : ParseFn)
  | parseName (done : StringDone)
  | parseValue (done : ValueDone)
  | parseString (done : StringDone)
  | endOfVector (items : List ManifestValue) (done : ValueDone)

/-- The function for the next character, and the top-level tuples so far. -/
structure Parser where
  next : ParseFn
  roots : List ManifestValue

def startFn : ParseFn := .ignoreWhitespace (.parseTuple .root)

def Parser.start : Parser := ⟨startFn, []⟩

def ValueDone.apply (roots : List ManifestValue) : ValueDone → ManifestValue → Parser
  | .root, v => ⟨startFn, roots ++ [v]⟩
  | .entry entries name done, v =>
    ⟨.ignoreWhitespace (.endOfTuple (setEntry entries name v) done), roots⟩
  | .item items done, v => ⟨.endOfVector (items ++ [v]) done, roots⟩

def StringDone.apply (roots : List ManifestValue) : StringDone → Text → Parser
  | .name entries done, s =>
    ⟨.ignoreWhitespace (.discriminator (.parseValue (.entry entries s done))), roots⟩
  | .value done, s => done.apply roots (.string s)

/-- The character was taken, and the loop of `ParseManifest` looks at the
top-level tuples. -/
def took (p : Parser) : Move ManifestErr Parser :=
  if 1 < p.roots.length then .fail .moreThanOneTuple else .take p

def Parser.move (p : Parser) (r : Char) : Move ManifestErr Parser :=
  match p.next with
  | .ignoreWhitespace next =>
    if r = '#' then .take { p with next := .comment next }
    else if r ∈ manifestWhitespace then .take p
    else .again { p with next := next }
  | .comment next =>
    if r = '\n' then .take { p with next := .ignoreWhitespace next } else .take p
  | .quotedString done b =>
    if r = '"' then took (done.apply p.roots b)
    else if r = '\\' then .take { p with next := .escaped done b }
    else .take { p with next := .quotedString done (b ++ [r]) }
  | .escaped done b => .take { p with next := .quotedString done (b ++ [r]) }
  | .terminal terminals done b =>
    if r ∈ terminals then .again (done.apply p.roots b)
    else .take { p with next := .terminal terminals done (b ++ [r]) }
  | .parseTuple done =>
    if r ≠ '(' then .fail (.expectedTuple r)
    else .take { p with next := .ignoreWhitespace (.endOfTuple [] done) }
  | .endOfTuple entries done =>
    if r = ')' then took (done.apply p.roots (.tuple entries))
    else .again { p with next := .ignoreWhitespace (.parseName (.name entries done)) }
  | .discriminator pv =>
    if r ≠ ':' then .fail (.unknownDiscriminator r) else .take { p with next := pv }
  | .parseName done =>
    if r = '"' then .take { p with next := .quotedString done [] }
    else .again { p with next := .terminal nameTerminals done [] }
  | .parseValue done =>
    if r = '(' then .take { p with next := .ignoreWhitespace (.endOfTuple [] done) }
    else if r = '[' then .take { p with next := .ignoreWhitespace (.endOfVector [] done) }
    else .again { p with next := .ignoreWhitespace (.parseString (.value done)) }
  | .parseString done =>
    if r = '"' then .take { p with next := .quotedString done [] }
    else .again { p with next := .terminal valueTerminals done [] }
  | .endOfVector items done =>
    if r = ']' then took (done.apply p.roots (.vector items))
    else .again { p with next := .ignoreWhitespace (.parseValue (.item items done)) }

def isControl (r : Char) : Bool :=
  (r.toNat < 0x20 && r ≠ '\t' && r ≠ '\n' && r ≠ '\r') || r.toNat = 0x7f

def parseText (fuel : Nat) (s : Text) : Option (Except ManifestErr ManifestValue) :=
  match s.find? isControl with
  | some r => some (.error (.controlCharacter r))
  | none =>
    match feed Parser.move fuel .start s with
    | none => none
    | some (.error e) => some (.error e)
    | some (.ok p) =>
      match p.roots with
      | [v] => some (.ok v)
      | _ => some (.error .incomplete)

/-- `ParseManifest`.  A `)` in a vector is handed on for ever, so that the call
takes fuel. -/
def parseManifest (fuel : Nat) (s : ByteArray) : Option (Except ManifestErr ManifestValue) :=
  match s.utf8Decode? with
  | none => some (.error .notUTF8)
  | some text => parseText fuel text.toList

theorem parseText_eq_ok {fuel : Nat} {s : Text} {v : ManifestValue}
    (h : parseText fuel s = some (.ok v)) :
    s.find? isControl = none ∧ ∃ p, Feeds Parser.move .start s p ∧ p.roots = [v] := by
  unfold parseText at h
  split at h
  · cases h
  · next hcontrol =>
    refine ⟨hcontrol, ?_⟩
    split at h
    · cases h
    · cases h
    · next p hfeed =>
      split at h
      · next w hroots =>
        cases h
        exact ⟨p, feeds_of_feed hfeed, hroots⟩
      · cases h

theorem parseManifest_utf8Encode (fuel : Nat) (s : Text) :
    parseManifest fuel s.utf8Encode = parseText fuel s := by
  unfold parseManifest
  rw [List.utf8Decode?_utf8Encode]

theorem parseManifest_eq_ok {fuel : Nat} {s : ByteArray} {v : ManifestValue}
    (h : parseManifest fuel s = some (.ok v)) :
    ∃ text : Text, s = text.utf8Encode ∧ parseText fuel text = some (.ok v) := by
  unfold parseManifest at h
  cases hdecode : s.utf8Decode? with
  | none =>
    rw [hdecode] at h
    cases h
  | some text =>
    rw [hdecode] at h
    refine ⟨text.toList, ?_, h⟩
    have hsome : s.utf8Decode?.isSome = true := by rw [hdecode, Option.isSome_some]
    rw [← ByteArray.utf8Encode_get_utf8Decode? (b := s) (h := hsome)]
    simp only [hdecode, Option.get_some]

end Jerboa.Manifest
