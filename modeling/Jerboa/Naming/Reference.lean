import Jerboa.Lib.Except
import Jerboa.Naming

/-!
# Image references

`naming.ParseImageReference`, which guesses from the first component of a reference whether
it names a registry, and `String`, which leaves the default registry out.
-/

namespace Jerboa.Naming

open List Lib Lib.Delimited Net.Address

def defaultRegistry : Text := "registry.jerboa.dev".toList

structure ImageReference where
  registry : Text
  «namespace» : Text
  repository : Text
  tag : Text
  digest : Text
deriving DecidableEq, Repr

def isLowerAlnum (c : Char) : Bool := c.isLower || c.isDigit

def isNamespace (s : Text) : Bool :=
  s.head?.any isLowerAlnum && s.length ≤ 39 && s.all fun c => isLowerAlnum c || c == '-'

/-- `repositoryRE`: letters and digits, with single separators between them. -/
def isRepository (s : Text) : Bool :=
  s.head?.any isLowerAlnum && s.getLast?.any isLowerAlnum &&
    decide (s.IsChain fun c d => isLowerAlnum c || isLowerAlnum d) &&
    s.all fun c => isLowerAlnum c || c == '.' || c == '_' || c == '-'

def isTag (s : Text) : Bool :=
  (s.head?.any fun c => c.isAlphanum || c == '_') && s.length ≤ 128 &&
    s.all fun c => c.isAlphanum || c == '.' || c == '_' || c == '-'

def digestScheme : Text := "sha256:".toList

def isDigest (d : Text) : Bool :=
  digestScheme.isPrefixOf d && (d.drop 7).length == 64 &&
    (d.drop 7).all fun c => c.isDigit || ('a' ≤ c && c ≤ 'f')

namespace ImageReference

def name (r : ImageReference) : Text :=
  if r.registry ≠ defaultRegistry then r.registry ++ '/' :: (r.namespace ++ '/' :: r.repository)
  else r.namespace ++ '/' :: r.repository

def string (r : ImageReference) : Text :=
  let s := if r.tag ≠ [] then r.name ++ ':' :: r.tag else r.name
  if r.digest ≠ [] then s ++ '@' :: r.digest else s

end ImageReference

/-! ## The pieces of a reference -/

variable {s : Text} {c : Char}

variable {r : ImageReference}

structure Accepted (r : ImageReference) : Prop where
  digest : r.digest ≠ [] → isDigest r.digest
  tag : r.tag ≠ [] → isTag r.tag
  named : r.tag ≠ [] ∨ r.digest ≠ []
  «namespace» : isNamespace r.namespace
  repository : byteLen r.repository ≤ 128 ∧ isRepository r.repository
  registry : '/' ∉ r.registry
  plain : r.digest = [] → '@' ∉ r.registry

namespace Accepted

variable {r r' : ImageReference}

/-- What is printed before the last slash, and after it up to the digest. -/
def front (r : ImageReference) : Text :=
  if r.registry ≠ defaultRegistry then r.registry ++ '/' :: r.namespace else r.namespace

def last (r : ImageReference) : Text :=
  if r.tag ≠ [] then r.repository ++ ':' :: r.tag else r.repository

section

variable (h : Accepted r)
include h

section

variable (hlocal : r.registry = defaultRegistry → r.namespace ≠ localhost)
include hlocal

end

end

end Accepted

end Jerboa.Naming
