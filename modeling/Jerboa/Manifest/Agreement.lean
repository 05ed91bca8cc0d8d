import Jerboa.Manifest.Characters
import Jerboa.Manifest.Parse

/-!
# The two parsers agree

What `ParseManifest` accepts, mkfs reads without an error and as the same tuple.
The two parsers are in step: a state of the first stands for one of the second,
and both do the same with every character, unless the first one gives up.
-/

namespace Jerboa.Manifest

open Lib Lib.Feed Net.Address C.State

mutual

/-- The value as mkfs holds it: its strings are their bytes. -/
def ManifestValue.toC : ManifestValue → C.Value
  | .string s => .string (C.bytes s)
  | .tuple entries => .tuple (entriesToC entries)
  | .vector items => .vector (itemsToC items)

def entriesToC : Entries → C.Table
  | [] => []
  | (name, v) :: entries => (C.bytes name, v.toC) :: entriesToC entries

def itemsToC : List ManifestValue → List C.Value
  | [] => []
  | v :: items => v.toC :: itemsToC items

end

theorem entriesToC_eq_map (entries : Entries) :
    entriesToC entries = entries.map (Prod.map C.bytes ManifestValue.toC) := by
  induction entries with
  | nil => rfl
  | cons e entries ih => rw [entriesToC, ih, List.map_cons, Prod.map]

theorem itemsToC_eq_map (items : List ManifestValue) :
    itemsToC items = items.map ManifestValue.toC := by
  induction items with
  | nil => rfl
  | cons v items ih => rw [itemsToC, ih, List.map_cons]

theorem entriesToC_setEntry (entries : Entries) (name : Text) (v : ManifestValue) :
    entriesToC (setEntry entries name v) =
      C.tableSet (entriesToC entries) (C.bytes name) v.toC := by
  rw [entriesToC_eq_map, entriesToC_eq_map, setEntry, C.tableSet]
  exact Assoc.map_set C.bytes_injective ManifestValue.toC entries name v

theorem itemsToC_append (items : List ManifestValue) (v : ManifestValue) :
    itemsToC (items ++ [v]) = C.vectorSet (itemsToC items) items.length v.toC := by
  have hlen : (items.map ManifestValue.toC).length = items.length := List.length_map _
  rw [itemsToC_eq_map, itemsToC_eq_map, C.vectorSet, hlen, Nat.add_sub_cancel_left,
    List.map_append, List.replicate_one]
  conv => rhs; rw [← hlen]
  rw [List.set_append_right _ _ (Nat.le_refl _), Nat.sub_self]
  rfl

/-! ## The states -/

def ValueDone.toC : ValueDone → C.Completion
  | .root => .bridgeCompletion
  | .entry entries name done => .tupleValueComplete (entriesToC entries) (C.bytes name) done.toC
  | .item items done =>
    .vectorValueComplete (itemsToC items) items.length (items.length + 1) done.toC

def StringDone.toC : StringDone → C.Completion
  | .name entries done => .nameComplete (entriesToC entries) done.toC
  | .value done => done.toC

def ParseFn.toC : ParseFn → C.Parser
  | .ignoreWhitespace next => .eatWhitespace next.toC
  | .comment next => .tilNewline (.eatWhitespace next.toC)
  | .quotedString done b => .quotedString done.toC (C.bytes b)
  | .escaped done b => .escapedCharacter done.toC (C.bytes b)
  | .terminal terminals done b => .terminal done.toC (C.charset terminals) (C.bytes b)
  | .parseTuple done => .parseTuple done.toC
  | .endOfTuple entries done => .isEndOfTuple done.toC (entriesToC entries)
  | .discriminator pv => .dispatchProperty pv.toC
  | .parseName done => .parseName done.toC []
  | .parseValue done => .parseValue done.toC
  | .parseString done => .parseValueString done.toC []
  | .endOfVector items done => .isEndOfVector done.toC (itemsToC items) items.length

def Parser.toC (p : Parser) : C.State := ⟨p.next.toC, itemsToC p.roots, []⟩

section Step

variable (roots : List ManifestValue) (r : Char)

theorem ValueDone.toC_apply (done : ValueDone) (next : ParseFn) (v : ManifestValue) :
    (done.apply roots v).toC = done.toC.applyValue (Parser.toC ⟨next, roots⟩) v.toC := by
  cases done with
  | root =>
    simp only [ValueDone.apply, Parser.toC, ValueDone.toC, C.Completion.applyValue,
      itemsToC_eq_map, List.map_append]
    rfl
  | entry =>
    simp only [ValueDone.apply, Parser.toC, ValueDone.toC, C.Completion.applyValue, ParseFn.toC,
      entriesToC_setEntry]
  | item =>
    simp only [ValueDone.apply, Parser.toC, ValueDone.toC, C.Completion.applyValue, ParseFn.toC,
      itemsToC_append, List.length_append, List.length_singleton]

theorem StringDone.toC_apply (done : StringDone) (next : ParseFn) (s : Text) :
    (done.apply roots s).toC = done.toC.applyString (Parser.toC ⟨next, roots⟩) (C.bytes s) := by
  cases done with
  | name => rfl
  | value done =>
    have hvalue := done.toC_apply roots next (.string s)
    cases done with
    | root => exact hvalue
    | entry => exact hvalue
    | item => exact hvalue

theorem val_eq_iff {r c : Char} : r.val = c.val ↔ r = c := Char.val_inj

theorem mem_charset {r : Char} {elements : List Char} :
    r.val ∈ C.charset elements ↔ r ∈ elements := by
  unfold C.charset
  rw [List.mem_map]
  constructor
  · rintro ⟨c, hc, heq⟩
    exact val_eq_iff.mp heq ▸ hc
  · exact fun h => ⟨r, h, rfl⟩

theorem charset_whitespace : C.whitespace = C.charset manifestWhitespace := rfl

def Represents (p : Parser) (st : C.State) : Prop := st = p.toC

theorem inStep_took {p : Parser} {st : C.State} (h : Represents p st) :
    InStep Represents (took p) (.take st : Move Empty C.State) := by
  unfold took
  split
  · trivial
  · exact h

theorem inStep_move (p : Parser) :
    InStep Represents (p.move r) (p.toC.apply r.val) := by
  obtain ⟨next, roots⟩ := p
  cases next with
  | ignoreWhitespace =>
    simp only [Parser.move, Parser.toC, ParseFn.toC, apply, val_eq_iff,
      charset_whitespace, mem_charset]
    split
    · exact rfl
    · split
      · exact rfl
      · exact rfl
  | comment | parseName | parseString =>
    simp only [Parser.move, Parser.toC, ParseFn.toC, apply, val_eq_iff]
    split
    · exact rfl
    · exact rfl
  | quotedString done b =>
    simp only [Parser.move, Parser.toC, ParseFn.toC, apply, val_eq_iff,
      C.pushCharacter_bytes]
    split
    · exact inStep_took (done.toC_apply roots (.quotedString done b) b).symm
    · split
      · exact rfl
      · exact rfl
  | escaped =>
    simp only [Parser.move, Parser.toC, ParseFn.toC, apply, C.pushCharacter_bytes]
    exact rfl
  | terminal terminals done b =>
    simp only [Parser.move, Parser.toC, ParseFn.toC, apply, mem_charset,
      C.pushCharacter_bytes]
    split
    · exact (done.toC_apply roots (.terminal terminals done b) b).symm
    · exact rfl
  | parseTuple =>
    simp only [Parser.move, Parser.toC, ParseFn.toC, apply, val_eq_iff]
    by_cases h : r = '('
    · rw [if_neg (not_not_intro h), if_pos h]
      exact rfl
    · rw [if_pos h]
      trivial
  | endOfTuple entries done =>
    simp only [Parser.move, Parser.toC, ParseFn.toC, apply, val_eq_iff]
    split
    · exact inStep_took (done.toC_apply roots (.endOfTuple entries done) (.tuple entries)).symm
    · exact rfl
  | discriminator =>
    simp only [Parser.move, Parser.toC, ParseFn.toC, apply, val_eq_iff]
    by_cases h : r = ':'
    · rw [if_neg (not_not_intro h), if_pos h]
      exact rfl
    · rw [if_pos h]
      trivial
  | parseValue =>
    simp only [Parser.move, Parser.toC, ParseFn.toC, apply, val_eq_iff]
    split
    · exact rfl
    · split
      · exact rfl
      · exact rfl
  | endOfVector items done =>
    simp only [Parser.move, Parser.toC, ParseFn.toC, apply, val_eq_iff]
    split
    · exact inStep_took (done.toC_apply roots (.endOfVector items done) (.vector items)).symm
    · exact rfl

end Step

theorem feeds_of_parseManifest {fuel : Nat} {s : ByteArray} {v : ManifestValue}
    (h : parseManifest fuel s = some (.ok v)) :
    ∃ st, Feeds apply .start (C.characters s.data.toList) st ∧ st.errors = [] ∧
      st.finished = [v.toC] := by
  obtain ⟨text, rfl, htext⟩ := parseManifest_eq_ok h
  obtain ⟨-, p, hfeeds, hroots⟩ := parseText_eq_ok htext
  obtain ⟨st, hst, rfl⟩ := hfeeds.simulate (n := apply) (f := Char.val)
    (R := Represents) (fun p st r hR => hR ▸ inStep_move r p) (t := .start) rfl
  refine ⟨p.toC, ?_, rfl, ?_⟩
  · rw [C.utf8Encode_toList, C.characters_bytes]
    exact hst
  · rw [Parser.toC, hroots]
    rfl

/-- Every manifest that `ParseManifest` accepts, mkfs's parser reads without an
error, and it finishes exactly one tuple, which is the one `ParseManifest`
returns: the same names in the same tuples, each with its last value, the same
elements of the vectors in order, and the same bytes of the strings. -/
theorem tuple_parser_agrees (fuel : Nat) (s : ByteArray) (v : ManifestValue)
    (h : parseManifest fuel s = some (.ok v)) :
    ∃ fuel' st, C.parserFeed fuel' s.data.toList = some st ∧ st.errors = [] ∧
      st.finished = [v.toC] := by
  obtain ⟨st, hfeeds, herrors, hfinished⟩ := feeds_of_parseManifest h
  obtain ⟨fuel', hfuel'⟩ := hfeeds.exists_fuel
  refine ⟨fuel', st, ?_, herrors, hfinished⟩
  rw [C.parserFeed, hfuel']

/-- A manifest with a name that is given twice, a comment, and a character
outside ASCII. -/
def sampleText : Text :=
  "(program:/app arguments:[a \"b c\"]\n environment:(K:u K:\"é\")) # end".toList

def sampleValue : ManifestValue :=
  .tuple [("program".toList, .string "/app".toList),
    ("arguments".toList, .vector [.string "a".toList, .string "b c".toList]),
    ("environment".toList, .tuple [("K".toList, .string "é".toList)])]

theorem tuple_parser_agrees_sample :
    parseText 200 sampleText = some (.ok sampleValue) ∧
      ∃ fuel' st, C.parserFeed fuel' sampleText.utf8Encode.data.toList = some st ∧
        st.errors = [] ∧ st.finished = [sampleValue.toC] := by
  have htext : parseText 200 sampleText = some (.ok sampleValue) := rfl
  refine ⟨htext, tuple_parser_agrees 200 sampleText.utf8Encode sampleValue ?_⟩
  rw [parseManifest_utf8Encode, htext]

end Jerboa.Manifest
